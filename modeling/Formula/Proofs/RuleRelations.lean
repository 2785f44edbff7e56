import Formula.Proofs.Panels
import Mathlib.Algebra.Order.Ring.Rat

/-!
# Relations between quadrature rules

The trapezoid rule is the mean of the two rules of rectangles, and weights one, four and one weigh
the middle rule against it. Back from the upper limit to the lower one every rule changes its sign,
where left and right change places.
-/

namespace Formula

namespace Quadrature

open Finset (range)

variable {K : Type} [Field K] [CharZero K] {n : ℕ}

-- ---------------------------------------------------------------------------
-- Limits that change places
-- ---------------------------------------------------------------------------

/-- The rule that has the same samples from the other end. -/
def Rule.mirror : Rule → Rule
  | .left => .right
  | .right => .left
  | .middle => .middle
  | .trapezoids => .trapezoids
  | .simpson => .simpson

theorem Rule.parts_mirror (rule : Rule) : rule.mirror.parts = rule.parts := by
  cases rule <;> rfl

theorem Rule.panel_swap (rule : Rule) (f : K → K) (u v : K) :
    rule.panel f v u = -rule.mirror.panel f u v := by
  cases rule <;> simp only [Rule.panel, Rule.mirror, add_comm v u] <;> ring

variable [BEq K]

theorem apply_swap (rule : Rule) (f : K → K) (hn : 0 < n) (a b : K) :
    rule.apply f (rule.parts * n) b a = -rule.mirror.apply f (rule.parts * n) a b := by
  rw [apply_eq_sum_panels rule f hn, ← rule.parts_mirror, apply_eq_sum_panels rule.mirror f hn,
    ← Finset.sum_range_reflect, ← Finset.sum_neg_distrib]
  refine Finset.sum_congr rfl fun i hi => ?_
  have hlast : n - 1 - i + (i + 1) = n ∧ n - 1 - i + 1 + i = n := by
    have hi := Finset.mem_range.mp hi
    omega
  rw [gridPoint_swap hn hlast.1, gridPoint_swap hn hlast.2, rule.panel_swap]

theorem apply_swap_intervals (rule : Rule) (hparts : rule.parts = 1) (f : K → K) (hn : 0 < n)
    (a b : K) : rule.apply f n b a = -rule.mirror.apply f n a b := by
  have h := apply_swap rule f hn a b
  rwa [hparts, one_mul] at h

-- ---------------------------------------------------------------------------
-- Rules over the same grid
-- ---------------------------------------------------------------------------

theorem trapezoids_eq_mean (f : K → K) (hn : 0 < n) (a b : K) :
    Rule.trapezoids.apply f n a b = (Rule.left.apply f n a b + Rule.right.apply f n a b) / 2 := by
  rw [apply_eq_sum_intervals .trapezoids rfl f hn, apply_eq_sum_intervals .left rfl f hn,
    apply_eq_sum_intervals .right rfl f hn, ← Finset.sum_add_distrib, Finset.sum_div]
  refine Finset.sum_congr rfl fun i _ => ?_
  simp only [Rule.panel]
  ring

theorem simpson_eq_weighted (f : K → K) (hn : 0 < n) (a b : K) :
    Rule.simpson.apply f (2 * n) a b =
      (2 * Rule.middle.apply f n a b + Rule.trapezoids.apply f n a b) / 3 := by
  refine (apply_eq_sum_panels .simpson f hn a b).trans ?_
  rw [apply_eq_sum_intervals .middle rfl f hn, apply_eq_sum_intervals .trapezoids rfl f hn,
    Finset.mul_sum, ← Finset.sum_add_distrib, Finset.sum_div]
  refine Finset.sum_congr rfl fun i _ => ?_
  simp only [Rule.panel]
  ring

/-- Between any limits and over any number of intervals the five rules are related for every
function that is sampled. -/
theorem rules_are_related (f : ℚ → ℚ) (n : ℕ) (hn : 1 ≤ n) (a b : ℚ) :
    (∀ rule : Rule, rule.Integrates) ∧
      Rule.trapezoids.apply f n a b = (Rule.left.apply f n a b + Rule.right.apply f n a b) / 2 ∧
      Rule.simpson.apply f (2 * n) a b =
        (2 * Rule.middle.apply f n a b + Rule.trapezoids.apply f n a b) / 3 ∧
      Rule.left.apply f n b a = -Rule.right.apply f n a b ∧
      Rule.middle.apply f n b a = -Rule.middle.apply f n a b ∧
      Rule.trapezoids.apply f n b a = -Rule.trapezoids.apply f n a b ∧
      Rule.simpson.apply f (2 * n) b a = -Rule.simpson.apply f (2 * n) a b :=
  ⟨Rule.integrates, trapezoids_eq_mean f hn a b, simpson_eq_weighted f hn a b,
    apply_swap_intervals .left rfl f hn a b, apply_swap_intervals .middle rfl f hn a b,
    apply_swap_intervals .trapezoids rfl f hn a b, apply_swap .simpson f hn a b⟩

theorem rules_are_related_downwards :
    let f : ℚ → ℚ := fun x => x ^ 4 - x
    1 ≤ 3 ∧ Rule.left.apply f 3 1 (-2) = -2 ∧ Rule.right.apply f 3 1 (-2) = -20 ∧
      Rule.middle.apply f 3 1 (-2) = -107 / 16 ∧ Rule.trapezoids.apply f 3 1 (-2) = -11 ∧
      Rule.simpson.apply f 6 1 (-2) = -65 / 8 ∧ Rule.left.apply f 3 (-2) 1 = 20 ∧
      Rule.middle.apply f 3 (-2) 1 = 107 / 16 ∧ Rule.trapezoids.apply f 3 (-2) 1 = 11 ∧
      Rule.simpson.apply f 6 (-2) 1 = 65 / 8 := by
  intro f
  have hleft : Rule.left.apply f 3 1 (-2) = -2 := by decide +kernel
  have hright : Rule.right.apply f 3 1 (-2) = -20 := by decide +kernel
  have hmiddle : Rule.middle.apply f 3 1 (-2) = -107 / 16 := by decide +kernel
  obtain ⟨-, htrapezoids, hsimpson, hleft', hmiddle', htrapezoids', hsimpson'⟩ :=
    rules_are_related f 3 (by decide) 1 (-2)
  rw [hleft, hright] at htrapezoids
  rw [hmiddle, htrapezoids] at hsimpson
  refine ⟨by decide, hleft, hright, hmiddle, htrapezoids.trans (by norm_num),
    hsimpson.trans (by norm_num), hleft'.trans ?_, hmiddle'.trans ?_, htrapezoids'.trans ?_,
    hsimpson'.trans ?_⟩
  · rw [hright, neg_neg]
  · rw [hmiddle]
    norm_num
  · rw [htrapezoids]
    norm_num
  · rw [hsimpson]
    norm_num

end Quadrature

end Formula
