import Formula.Integral
import Formula.Proofs.Outcome
import Mathlib.Algebra.BigOperators.Field
import Mathlib.Algebra.BigOperators.Fin
import Mathlib.Algebra.BigOperators.Intervals
import Mathlib.Algebra.CharZero.Defs
import Mathlib.Tactic.LinearCombination
import Mathlib.Tactic.Ring

/-!
# Quadrature panel by panel

In exact arithmetic a rule adds up what it comes to on single panels. A panel is one interval
between neighbouring points of an even grid, and for weights one, four and one it is two of them.
So what holds of a rule follows from what holds of it on one panel. In doubles the same rules
integrate trees.
-/

namespace Formula.Quadrature

open Finset (range)

-- ---------------------------------------------------------------------------
-- Lists of samples
-- ---------------------------------------------------------------------------

section

variable {α : Type} (g : ℕ → α) (n : ℕ) (z : α)

theorem tail_map_range :
    ((List.range (n + 1)).map g).tail = (List.range n).map fun i => g (i + 1) := by
  rw [List.range_succ_eq_map, List.map_cons, List.map_map]
  rfl

theorem inner_map_range :
    ((List.range (n + 2)).map g).tail.dropLast = (List.range n).map fun i => g (i + 1) := by
  rw [tail_map_range, List.range_succ, List.map_append, List.map_singleton, List.dropLast_concat]

theorem headD_map_range : ((List.range (n + 1)).map g).headD z = g 0 := by
  rw [List.range_succ_eq_map, List.map_cons, List.headD_cons]

theorem getLastD_map_range : ((List.range (n + 1)).map g).getLastD z = g n := by
  rw [List.range_succ, List.map_append, List.map_singleton, List.getLastD_concat]

end

-- ---------------------------------------------------------------------------
-- Weighted sums
-- ---------------------------------------------------------------------------

section

variable {K : Type} [Field K]

theorem total_eq_sum (ys : List K) : total ys = ys.sum := by
  rw [total, Nat.cast_zero, ← List.sum_eq_foldl]

theorem total_cons (y : K) (ys : List K) : total (y :: ys) = y + total ys := by
  rw [total_eq_sum, total_eq_sum, List.sum_cons]

theorem total_map_range (g : ℕ → K) (n : ℕ) :
    total ((List.range n).map g) = ∑ i ∈ range n, g i :=
  total_eq_sum _

/-- Weights four and two in turn, and one at both ends, are the weights one, four and one of each
pair of intervals. -/
theorem total_alternating (g : ℕ → K) (n : ℕ) :
    g 0 + g (2 * (n + 1)) +
        total (alternating true ((List.range (2 * n + 1)).map fun i => g (i + 1))) =
      ∑ i ∈ range (n + 1), (g (2 * i) + 4 * g (2 * i + 1) + g (2 * (i + 1))) := by
  -- The second of the inner samples ends the first pair and begins the others.
  induction n generalizing g with
  | zero =>
    simp [alternating, total]
    ring
  | succ n ih =>
    have hsamples : (List.range (2 * (n + 1) + 1)).map (fun i => g (i + 1)) =
        g 1 :: g 2 :: (List.range (2 * n + 1)).map fun i => g (i + 1 + 2) := by
      rw [Nat.mul_succ, List.range_succ_eq_map, List.range_succ_eq_map]
      simp [Function.comp_def]
    have hothers := ih fun i => g (i + 2)
    rw [Finset.sum_range_succ', hsamples, alternating, alternating, total_cons, total_cons]
    simp only [Nat.mul_succ, Nat.mul_zero, Nat.zero_add, Nat.cast_ofNat] at *
    rw [← hothers]
    ring

variable [CharZero K]

theorem sum_trapezoids (g : ℕ → K) (n : ℕ) : (g 0 + g (n + 1)) / 2 + ∑ i ∈ range n, g (i + 1) =
    ∑ i ∈ range (n + 1), (g i + g (i + 1)) / 2 := by
  induction n with
  | zero => simp
  | succ n ih =>
    rw [Finset.sum_range_succ, Finset.sum_range_succ _ (n + 1), ← ih]
    ring

theorem combine_trapezoids (g : ℕ → K) {n : ℕ} (hn : 0 < n) (scale : K) :
    Rule.trapezoids.combine n scale ((List.range (n + 1)).map g) =
      scale / n * ∑ i ∈ range n, (g i + g (i + 1)) / 2 := by
  obtain ⟨n, rfl⟩ := Nat.exists_eq_succ_of_ne_zero hn.ne'
  rw [Rule.combine, headD_map_range, getLastD_map_range, inner_map_range, total_map_range,
    Nat.cast_ofNat, sum_trapezoids]
  ring

theorem combine_simpson (g : ℕ → K) {n : ℕ} (hn : 0 < n) (scale : K) :
    Rule.simpson.combine (2 * n) scale ((List.range (2 * n + 1)).map g) =
      scale / n * ∑ i ∈ range n, (g (2 * i) + 4 * g (2 * i + 1) + g (2 * (i + 1))) / 6 := by
  obtain ⟨n, rfl⟩ := Nat.exists_eq_succ_of_ne_zero hn.ne'
  have hinner : ((List.range (2 * (n + 1) + 1)).map g).tail.dropLast =
      (List.range (2 * n + 1)).map fun i => g (i + 1) := inner_map_range g (2 * n + 1)
  rw [Rule.combine, headD_map_range, getLastD_map_range, hinner, total_alternating,
    ← Finset.sum_div, Nat.cast_mul, Nat.cast_ofNat, Nat.cast_ofNat]
  ring

end

-- ---------------------------------------------------------------------------
-- The grid
-- ---------------------------------------------------------------------------

variable {K : Type} [Field K] {a b : K} {n : ℕ}

def gridPoint (n : ℕ) (a b : K) (i : ℕ) : K := a + i * ((b - a) / n)

theorem gridPoint_zero : gridPoint n a b 0 = a := by
  simp [gridPoint]

theorem gridPoint_succ_sub (i : ℕ) :
    gridPoint n a b (i + 1) - gridPoint n a b i = (b - a) / n := by
  rw [gridPoint, gridPoint, Nat.cast_succ]
  ring

variable [CharZero K]

theorem gridPoint_last (hn : 0 < n) : gridPoint n a b n = b := by
  have hne : (n : K) ≠ 0 := Nat.cast_ne_zero.mpr hn.ne'
  rw [gridPoint, mul_div_cancel₀ _ hne, add_sub_cancel]

theorem gridPoint_swap (hn : 0 < n) {i j : ℕ} (hij : i + j = n) :
    gridPoint n b a i = gridPoint n a b j := by
  have hne : (n : K) ≠ 0 := Nat.cast_ne_zero.mpr hn.ne'
  have hcast : (i : K) + j = n := by exact_mod_cast hij
  have hwhole : (i + j : K) * ((b - a) / n) = b - a := by rw [hcast, mul_div_cancel₀ _ hne]
  rw [gridPoint, gridPoint]
  linear_combination -hwhole

theorem gridPoint_double (i : ℕ) : gridPoint (2 * n) a b (2 * i) = gridPoint n a b i := by
  simp only [gridPoint, Nat.cast_mul, Nat.cast_ofNat]
  ring

theorem gridPoint_between (i : ℕ) : gridPoint (2 * n) a b (2 * i + 1) =
    (gridPoint n a b i + gridPoint n a b (i + 1)) / 2 := by
  simp only [gridPoint, Nat.cast_mul, Nat.cast_ofNat, Nat.cast_succ]
  ring

-- ---------------------------------------------------------------------------
-- Where the rules sample
-- ---------------------------------------------------------------------------

/-- The points of a rule: of each interval where it begins, ends or has its middle, or all points
of the grid. -/
def Rule.points (n : ℕ) (a b : K) : Rule → List K
  | .left => (List.range n).map (gridPoint n a b)
  | .right => (List.range n).map fun i => gridPoint n a b (i + 1)
  | .middle => (List.range n).map fun i => (gridPoint n a b i + gridPoint n a b (i + 1)) / 2
  | .trapezoids | .simpson => (List.range (n + 1)).map (gridPoint n a b)

variable [BEq K]

theorem starts_eq : starts n a (b - a) ((b - a) / n) = (List.range n).map (gridPoint n a b) := by
  refine List.map_congr_left fun i _ => ?_
  rw [gridPoint]
  split <;> ring

theorem starts_concat (hn : 0 < n) :
    starts n a (b - a) ((b - a) / n) ++ [b] = (List.range (n + 1)).map (gridPoint n a b) := by
  rw [starts_eq, List.range_succ, List.map_append, List.map_singleton, gridPoint_last hn]

theorem inner_append_end (rule : Rule) (hn : 0 < n) :
    rule.inner n a (b - a) ((b - a) / n) ++ (if rule.usesEnd then [b] else []) =
      rule.points n a b := by
  cases rule with
  | left => exact (List.append_nil _).trans starts_eq
  | right =>
    have hne : starts n a (b - a) ((b - a) / n) ≠ [] := by simpa [starts] using hn.ne'
    rw [Rule.inner, Rule.usesEnd, if_pos rfl, ← List.tail_append_of_ne_nil hne, starts_concat hn,
      tail_map_range, Rule.points]
  | middle =>
    refine (List.append_nil _).trans (List.map_congr_left fun i _ => ?_)
    simp only [gridPoint, Nat.cast_succ]
    ring
  | trapezoids => exact starts_concat hn
  | simpson => exact starts_concat hn

theorem apply_eq_combine (rule : Rule) (f : K → K) (hn : 0 < n) : rule.apply f n a b =
    rule.combine n (if rule.usesSpan then b - a else (b - a) / n) ((rule.points n a b).map f) := by
  rw [Rule.apply, inner_append_end rule hn]

-- ---------------------------------------------------------------------------
-- Panels
-- ---------------------------------------------------------------------------

/-- What a rule comes to on a single panel. -/
def Rule.panel (f : K → K) (u v : K) : Rule → K
  | .left => (v - u) * f u
  | .right => (v - u) * f v
  | .middle => (v - u) * f ((u + v) / 2)
  | .trapezoids => (v - u) * ((f u + f v) / 2)
  | .simpson => (v - u) * ((f u + 4 * f ((u + v) / 2) + f v) / 6)

def Rule.parts : Rule → ℕ
  | .left | .right | .middle | .trapezoids => 1
  | .simpson => 2

theorem Rule.parts_pos (rule : Rule) : 0 < rule.parts := by
  cases rule <;> decide

theorem apply_eq_sum_panels (rule : Rule) (f : K → K) (hn : 0 < n) (a b : K) :
    rule.apply f (rule.parts * n) a b =
      ∑ i ∈ range n, rule.panel f (gridPoint n a b i) (gridPoint n a b (i + 1)) := by
  rw [apply_eq_combine rule f (Nat.mul_pos rule.parts_pos hn)]
  have hrectangles (g : ℕ → K) : (b - a) / n * total ((List.range n).map g) =
      ∑ i ∈ range n, (gridPoint n a b (i + 1) - gridPoint n a b i) * g i := by
    simp only [total_map_range, gridPoint_succ_sub, Finset.mul_sum]
  cases rule with
  | left | right | middle =>
    rw [Rule.parts, one_mul, Rule.points, List.map_map]
    exact hrectangles _
  | trapezoids =>
    rw [Rule.parts, one_mul, Rule.points, List.map_map, combine_trapezoids _ hn]
    simp only [Rule.usesSpan, Rule.panel, gridPoint_succ_sub, ← Finset.mul_sum, if_true,
      Function.comp_apply]
  | simpson =>
    rw [Rule.parts, Rule.points, List.map_map, combine_simpson _ hn]
    simp only [Rule.usesSpan, Rule.panel, gridPoint_succ_sub, ← Finset.mul_sum, if_true,
      Function.comp_apply, gridPoint_double, gridPoint_between]

theorem apply_eq_sum_intervals (rule : Rule) (hparts : rule.parts = 1) (f : K → K) (hn : 0 < n)
    (a b : K) : rule.apply f n a b =
      ∑ i ∈ range n, rule.panel f (gridPoint n a b i) (gridPoint n a b (i + 1)) := by
  have h := apply_eq_sum_panels rule f hn a b
  rwa [hparts, one_mul] at h

-- ---------------------------------------------------------------------------
-- Trees between doubles
-- ---------------------------------------------------------------------------

/-- Where all samples of a tree have values, its integral between doubles is what the rule comes to
for them. -/
def Rule.Integrates (rule : Rule) : Prop :=
  ∀ (e : Expr) (name : Datum) (fs : FunctionTable) (f : Float → Float) (n : Number) (k : Nat)
    (a b : Float), n.intervals = .ok k →
    (∀ x ∈ rule.inner k a (b - a) ((b - a) / (k : Float)) ++ (if rule.usesEnd then [b] else []),
      e.sample name fs x = .ok (f x)) →
    e.integral rule name fs n (.real a) (.real b) = .ok (rule.apply f k a b)

theorem Rule.integrates (rule : Rule) : rule.Integrates := by
  intro e name fs f n k a b hn hf
  have hspan : spanBetween (.real a) (.real b) = .ok (.real (b - a)) := rfl
  have hcut : rule.spanOfPoints (.real a) (.real b) (.real (b - a)) = .real (b - a) := by
    cases rule <;> rfl
  have hstep : fitting (Number.part? (.real (b - a)) k) = .ok ((b - a) / (k : Float)) := rfl
  have hwidth : (Number.real (b - a)).toFloat?.getD 0.0 = b - a := rfl
  have hscale : fitting (if rule.usesSpan then (Number.real (b - a)).toFloat? else
      Number.part? (.real (b - a)) k) =
      .ok (if rule.usesSpan then b - a else (b - a) / (k : Float)) := by
    cases rule <;> rfl
  have hfit (x : Float) : fitting (Number.real x).toFloat? = .ok x := rfl
  obtain ⟨hinner, hend⟩ := List.forall_mem_append.mp hf
  simp only [Expr.integral, hn, hspan, hcut, hstep, hwidth, hscale, hfit, ok_bind,
    mapM_eq_ok_map hinner, Rule.apply, List.map_append]
  cases h : rule.usesEnd with
  | false => rfl
  | true =>
    rw [h] at hend
    simp only [if_true, List.mapM_cons, List.mapM_nil, hfit, ok_bind, hend b List.mem_cons_self]
    rfl

end Formula.Quadrature
