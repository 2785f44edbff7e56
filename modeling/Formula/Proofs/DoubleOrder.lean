import Mathlib.Algebra.Order.Ring.Int
import Mathlib.Algebra.Order.Group.OrderIso
import Mathlib.Data.Prod.Lex

/-!
# The order of doubles

Doubles that are numbers are compared like keys: by the sign and by whether they are finite first,
then by the exponent, then by the mantissa, both backwards below zero. So they are totally ordered,
but for the two zeros, which have one key.
-/

namespace Formula.Double

open Float.Model (UnpackedFloat)

-- ---------------------------------------------------------------------------
-- Unpacked doubles
-- ---------------------------------------------------------------------------

/-- A key by which unpacked doubles are compared; not-a-number has none of its own. -/
def key : UnpackedFloat → ℤ ×ₗ ℤ ×ₗ ℤ
  | .notANumber | .zero _ => toLex (0, toLex (0, 0))
  | .infinity .positive => toLex (2, toLex (0, 0))
  | .infinity .negative => toLex (-2, toLex (0, 0))
  | .finite .positive m e _ => toLex (1, toLex (e, m))
  | .finite .negative m e _ => toLex (-1, toLex (-e, -m))

theorem compare_natCast (m n : ℕ) : compare (m : ℤ) n = compare m n := by
  rw [← cmp_eq_compare, ← cmp_eq_compare]
  exact (Nat.strictMono_cast : StrictMono (Nat.cast : ℕ → ℤ)).cmp_map_eq m n

theorem compare_neg (i j : ℤ) : compare (-i) (-j) = (compare i j).swap := by
  rw [← cmp_eq_compare, ← cmp_eq_compare, cmp_swap]
  exact (OrderIso.neg ℤ).strictMono.cmp_map_eq _ _

theorem compare_same (i e f m n : ℤ) :
    compare (toLex (i, toLex (e, m))) (toLex (i, toLex (f, n))) =
      (compare e f).then (compare m n) := by
  simp [Prod.Lex.compare_def, compareLex, compareOn]

theorem compare_eq_key {x y : UnpackedFloat} (hx : x.isNaN = false) (hy : y.isNaN = false) :
    x.compare y = some (compare (key x) (key y)) := by
  cases x with
  | notANumber => cases hx
  | infinity s =>
    cases y with
    | notANumber => cases hy
    | infinity t | finite t => cases s <;> cases t <;> rfl
    | zero => cases s <;> rfl
  | zero =>
    cases y with
    | notANumber => cases hy
    | infinity t | finite t => cases t <;> rfl
    | zero => rfl
  | finite s m e =>
    cases y with
    | notANumber => cases hy
    | infinity t => cases s <;> cases t <;> rfl
    | zero => cases s <;> rfl
    | finite t n f =>
      cases s with
      | positive =>
        cases t with
        | positive =>
          show some ((compare e f).then (compare m n)) =
            some (compare (toLex (1, toLex (e, (m : ℤ)))) (toLex (1, toLex (f, (n : ℤ)))))
          rw [compare_same, compare_natCast]
        | negative => rfl
      | negative =>
        cases t with
        | positive => rfl
        | negative =>
          show some ((compare e f).then (compare m n)).swap =
            some (compare (toLex (-1, toLex (-e, -(m : ℤ)))) (toLex (-1, toLex (-f, -(n : ℤ)))))
          rw [compare_same, compare_neg, compare_neg, compare_natCast, Ordering.swap_then]

-- ---------------------------------------------------------------------------
-- Doubles
-- ---------------------------------------------------------------------------

variable {x y z : Float}

theorem lt_iff_key (hx : x.isNaN = false) (hy : y.isNaN = false) :
    x < y ↔ key x.toModel.unpack < key y.toModel.unpack := by
  have hlt : x < y ↔ x.toModel.unpack.lt y.toModel.unpack = true := decide_eq_true_iff
  rw [hlt, UnpackedFloat.lt, compare_eq_key hx hy, beq_iff_eq, Option.some_inj,
    compare_lt_iff_lt]

theorem le_iff_key (hx : x.isNaN = false) (hy : y.isNaN = false) :
    x ≤ y ↔ key x.toModel.unpack ≤ key y.toModel.unpack := by
  have hle : x ≤ y ↔ x.toModel.unpack.le y.toModel.unpack = true := decide_eq_true_iff
  rw [hle, UnpackedFloat.le, compare_eq_key hx hy, Option.any_some, Ordering.isLE_iff_ne_gt,
    ← ne_eq, compare_le_iff_le]

theorem le_refl (hx : x.isNaN = false) : x ≤ x :=
  (le_iff_key hx hx).mpr le_rfl

theorem le_trans (hx : x.isNaN = false) (hy : y.isNaN = false) (hz : z.isNaN = false)
    (hxy : x ≤ y) (hyz : y ≤ z) : x ≤ z :=
  (le_iff_key hx hz).mpr (((le_iff_key hx hy).mp hxy).trans ((le_iff_key hy hz).mp hyz))

theorem le_of_lt (hx : x.isNaN = false) (hy : y.isNaN = false) (h : x < y) : x ≤ y :=
  (le_iff_key hx hy).mpr ((lt_iff_key hx hy).mp h).le

theorem le_of_not_lt (hx : x.isNaN = false) (hy : y.isNaN = false) (h : ¬ x < y) : y ≤ x := by
  rw [lt_iff_key hx hy, not_lt] at h
  exact (le_iff_key hy hx).mpr h

theorem le_of_not_le (hx : x.isNaN = false) (hy : y.isNaN = false) (h : ¬ x ≤ y) : y ≤ x := by
  rw [le_iff_key hx hy, not_le] at h
  exact (le_iff_key hy hx).mpr h.le

theorem key_eq (hx : x.isNaN = false) (hy : y.isNaN = false) (hxy : x ≤ y) (hyx : y ≤ x) :
    key x.toModel.unpack = key y.toModel.unpack :=
  ((le_iff_key hx hy).mp hxy).antisymm ((le_iff_key hy hx).mp hyx)

end Formula.Double
