import Formula.Proofs.Panels
import Mathlib.Algebra.Order.Ring.Rat
import Mathlib.Algebra.Polynomial.AlgebraMap
import Mathlib.Analysis.SpecialFunctions.Integrals.Basic

/-!
# What quadrature rules integrate exactly

Between its own samples no rule sees a function, but a polynomial of low degree is known by few of
its values. On every panel such a polynomial is integrated exactly, and so it is over any number of
panels between any limits.
-/

namespace Formula.Quadrature

open Polynomial
open Finset (range)

def Rule.degree : Rule → ℕ
  | .left | .right => 0
  | .middle | .trapezoids => 1
  | .simpson => 3

section

variable {K : Type} [Field K]

-- ---------------------------------------------------------------------------
-- One panel
-- ---------------------------------------------------------------------------

theorem Rule.panel_sum (rule : Rule) (s : Finset ℕ) (c : ℕ → K) (g : ℕ → K → K) (u v : K) :
    rule.panel (fun x => ∑ k ∈ s, c k * g k x) u v = ∑ k ∈ s, c k * rule.panel (g k) u v := by
  induction s using Finset.cons_induction with
  | empty => cases rule <;> simp [Rule.panel]
  | cons k s hk ih =>
    simp only [Finset.sum_cons, ← ih]
    cases rule <;> simp only [Rule.panel] <;> ring

variable [CharZero K]

theorem Rule.panel_pow (rule : Rule) {k : ℕ} (hk : k ≤ rule.degree) (u v : K) :
    rule.panel (· ^ k) u v = v ^ (k + 1) / (k + 1 : ℕ) - u ^ (k + 1) / (k + 1 : ℕ) := by
  cases rule with
  | left | right =>
    obtain rfl : k = 0 := Nat.le_zero.mp hk
    simp [Rule.panel]
  | middle | trapezoids =>
    have hk : k ≤ 1 := hk
    interval_cases k <;> simp only [Rule.panel] <;> push_cast <;> ring
  | simpson =>
    have hk : k ≤ 3 := hk
    interval_cases k <;> simp only [Rule.panel] <;> push_cast <;> ring

/-- A function whose derivative is the polynomial. -/
noncomputable def primitive (p : K[X]) (x : K) : K :=
  ∑ k ∈ range (p.natDegree + 1), p.coeff k * (x ^ (k + 1) / (k + 1 : ℕ))

theorem Rule.panel_eval (rule : Rule) {p : K[X]} (hp : p.natDegree ≤ rule.degree) (u v : K) :
    rule.panel (fun x => p.eval x) u v = primitive p v - primitive p u := by
  simp only [eval_eq_sum_range, rule.panel_sum, primitive, ← Finset.sum_sub_distrib, ← mul_sub]
  refine Finset.sum_congr rfl fun k hk => ?_
  have hdegree : k ≤ rule.degree := (Nat.lt_succ_iff.mp (Finset.mem_range.mp hk)).trans hp
  rw [rule.panel_pow hdegree]

-- ---------------------------------------------------------------------------
-- All panels
-- ---------------------------------------------------------------------------

theorem apply_eval [BEq K] (rule : Rule) {p : K[X]} (hp : p.natDegree ≤ rule.degree) {n : ℕ}
    (hn : 0 < n) (a b : K) :
    rule.apply (fun x => p.eval x) (rule.parts * n) a b = primitive p b - primitive p a := by
  simp only [apply_eq_sum_panels rule _ hn, rule.panel_eval hp]
  rw [Finset.sum_range_sub fun i => primitive p (gridPoint n a b i), gridPoint_last hn,
    gridPoint_zero]

end

-- ---------------------------------------------------------------------------
-- The integral
-- ---------------------------------------------------------------------------

theorem integral_aeval (p : ℚ[X]) (a b : ℚ) :
    ∫ x in (a : ℝ)..b, aeval x p = ((primitive p b - primitive p a : ℚ) : ℝ) := by
  have hcontinuous (k : ℕ) : Continuous fun x : ℝ => algebraMap ℚ ℝ (p.coeff k) * x ^ k := by
    fun_prop
  simp only [aeval_eq_sum_range, Algebra.smul_def]
  rw [intervalIntegral.integral_finsetSum fun k _ => (hcontinuous k).intervalIntegrable _ _]
  simp only [intervalIntegral.integral_const_mul, integral_pow, primitive, eq_ratCast]
  push_cast
  rw [← Finset.sum_sub_distrib]
  exact Finset.sum_congr rfl fun k _ => by ring

theorem apply_eq_integral (rule : Rule) {p : ℚ[X]} (hp : p.natDegree ≤ rule.degree) {n : ℕ}
    (hn : 0 < n) (a b : ℚ) :
    ((rule.apply (fun x => p.eval x) (rule.parts * n) a b : ℚ) : ℝ) =
      ∫ x in (a : ℝ)..b, aeval x p := by
  rw [apply_eval rule hp hn, integral_aeval]

/-- Between any limits an even number of intervals gives the integral of every polynomial of degree
three or less with the weights one, four, two and so on; and any number of intervals gives that of
every polynomial of degree one or less by trapezoids, and by samples in the middle. -/
theorem low_degrees_are_integrated_exactly (a b : ℚ) :
    (∀ rule : Rule, rule.Integrates) ∧
    (∀ (p : ℚ[X]) (n : ℕ), p.degree ≤ 3 → Even n → 2 ≤ n →
      ((Rule.simpson.apply (fun x => p.eval x) n a b : ℚ) : ℝ) = ∫ x in (a : ℝ)..b, aeval x p) ∧
    ∀ (p : ℚ[X]) (n : ℕ), p.degree ≤ 1 → 1 ≤ n →
      ((Rule.trapezoids.apply (fun x => p.eval x) n a b : ℚ) : ℝ) =
          ∫ x in (a : ℝ)..b, aeval x p ∧
      ((Rule.middle.apply (fun x => p.eval x) n a b : ℚ) : ℝ) = ∫ x in (a : ℝ)..b, aeval x p := by
  refine ⟨Rule.integrates, fun p n hp heven hn => ?_, fun p n hp hn => ⟨?_, ?_⟩⟩
  · obtain ⟨m, rfl⟩ := heven
    rw [← two_mul]
    exact apply_eq_integral .simpson (natDegree_le_of_degree_le hp) (by omega) a b
  · have h := apply_eq_integral .trapezoids (natDegree_le_of_degree_le hp) hn a b
    rwa [Rule.parts, one_mul] at h
  · have h := apply_eq_integral .middle (natDegree_le_of_degree_le hp) hn a b
    rwa [Rule.parts, one_mul] at h

theorem low_degrees_are_integrated_exactly_downwards :
    let p : ℚ[X] := X ^ 3 - C 2 * X
    let q : ℚ[X] := C 3 * X - C 1
    p.degree ≤ 3 ∧ q.degree ≤ 1 ∧ Even 4 ∧ 2 ≤ 4 ∧ 1 ≤ 3 ∧
      ∫ x in (1 : ℝ)..(-2), (x ^ 3 - 2 * x) = 3 / 4 ∧
      ∫ x in (1 : ℝ)..(-2), (3 * x - 1) = 15 / 2 := by
  intro p q
  have hp : p.degree ≤ 3 := by simp only [p]; compute_degree
  have hq : q.degree ≤ 1 := by simp only [q]; compute_degree
  have heven : Even 4 := by decide
  obtain ⟨-, hcubic, hlinear⟩ := low_degrees_are_integrated_exactly 1 (-2)
  refine ⟨hp, hq, heven, by decide, by decide, ?_, ?_⟩
  · have hvalue (x : ℚ) : p.eval x = x ^ 3 - 2 * x := by simp [p]
    have hreal (x : ℝ) : aeval x p = x ^ 3 - 2 * x := by simp [p]
    have hsamples : Rule.simpson.apply (fun x : ℚ => x ^ 3 - 2 * x) 4 1 (-2) = 3 / 4 := by
      decide +kernel
    have h := hcubic p 4 hp heven (by decide)
    simp only [hvalue, hreal, hsamples] at h
    push_cast at h
    exact h.symm
  · have hvalue (x : ℚ) : q.eval x = 3 * x - 1 := by simp [q]
    have hreal (x : ℝ) : aeval x q = 3 * x - 1 := by simp [q]
    have hsamples : Rule.trapezoids.apply (fun x : ℚ => 3 * x - 1) 3 1 (-2) = 15 / 2 := by
      decide +kernel
    have h := (hlinear q 3 hq (by decide)).1
    simp only [hvalue, hreal, hsamples] at h
    push_cast at h
    exact h.symm

end Formula.Quadrature
