import Mathlib
import Formula.Signature

/-!
# Data that are equal

Numbers are equal by their exact values, in whatever form they are written. Equal ones take
the same place among the whole numbers, so switches and ranges that are equal have the same
effect. Only what is not a number differs from itself, and no numeral stands for that.
-/

namespace Formula

-- ---------------------------------------------------------------------------
-- Numerals
-- ---------------------------------------------------------------------------

namespace Double

open Float.Model.UnpackedFloat
open Float.Model (Format UnpackedFloat)

theorem pack_ne_packedNaN {x : UnpackedFloat} (hx : x ≠ .notANumber) :
    x.pack .binary64 ≠ packedNaN .binary64 := by
  intro h
  have hexponent := congrArg unpackExponent h
  have hmantissa := congrArg unpackMantissa h
  rw [packedNaN, unpackExponent_packComponents] at hexponent
  rw [packedNaN, unpackMantissa_packComponents] at hmantissa
  cases x with
  | notANumber => exact hx rfl
  | infinity s =>
    rw [pack, packedInfinity, unpackMantissa_packComponents] at hmantissa
    cases hmantissa
  | zero s =>
    rw [pack, packedZero, unpackMantissa_packComponents] at hmantissa
    cases hmantissa
  | finite s m e hm =>
    simp only [pack] at hexponent hmantissa
    split at hexponent
    · rename_i hlarge
      rw [if_pos hlarge, packedInfinity, unpackMantissa_packComponents] at hmantissa
      cases hmantissa
    · rename_i hsmall
      split at hexponent
      · rw [unpackExponent_packComponents] at hexponent
        have hbits := congrArg BitVec.toNat hexponent
        simp only [BitVec.toNat_ofNat] at hbits
        change _ = 2047 at hbits
        change ¬ 2048 ≤ _ at hsmall
        omega
      · rw [unpackExponent_packComponents] at hexponent
        cases hexponent

theorem ne_nan_of_unpacked {x : UnpackedFloat} (hx : x ≠ .notANumber) :
    Float.ofModel (.pack x) ≠ Float.nan := by
  intro h
  have hbits := congrArg (fun y : Float => y.toModel.toBits.toBitVec) h
  exact pack_ne_packedNaN hx hbits

theorem unpack_ne_notANumber {x : Float} (hx : x ≠ Float.nan) : x.toModel.unpack ≠ .notANumber := by
  intro h
  have hbits := (isNaN_unpack_iff_of_valid x.toModel.valid).mp (isNaN_iff.mpr h)
  refine hx (Float.toBits_inj.mp (UInt64.toBitVec_inj.mp hbits))

theorem roundWithAccuracy_ne_notANumber (spec : Format) (s : Sign) (m : Nat) (e : Int)
    (a : Accuracy) : roundWithAccuracy spec s m e a ≠ .notANumber := by
  intro h
  unfold roundWithAccuracy at h
  dsimp only at h
  split at h <;> cases h

theorem mul_finite_ne_notANumber (spec : Format) {x : UnpackedFloat} (hx : x ≠ .notANumber)
    (s : Sign) (m : Nat) (e : Int) (hm : 0 < m) : x.mul spec (.finite s m e hm) ≠ .notANumber := by
  intro h
  cases x with
  | notANumber => exact hx rfl
  | finite => exact roundWithAccuracy_ne_notANumber _ _ _ _ _ h
  | _ => cases h

theorem div_finite_ne_notANumber (spec : Format) {x : UnpackedFloat} (hx : x ≠ .notANumber)
    (s : Sign) (m : Nat) (e : Int) (hm : 0 < m) : x.div spec (.finite s m e hm) ≠ .notANumber := by
  intro h
  cases x with
  | notANumber => exact hx rfl
  | finite => exact roundWithAccuracy_ne_notANumber _ _ _ _ _ h
  | _ => cases h

theorem ofScientific_ne_notANumber (spec : Format) (m : Nat) (e : Int) :
    UnpackedFloat.ofScientific spec m e ≠ .notANumber := by
  intro h
  unfold UnpackedFloat.ofScientific at h
  split at h
  · cases h
  split at h
  · cases h
  split at h
  · cases h
  have hfinite (s : Sign) (m : Nat) (e : Int) (hm : 0 < m) :
      UnpackedFloat.finite s m e hm ≠ .notANumber := by simp
  split at h
  · exact mul_finite_ne_notANumber spec (hfinite _ _ _ _) _ _ _ _ h
  · exact div_finite_ne_notANumber spec (hfinite _ _ _ _) _ _ _ _ h

theorem ofUInt64_ne_notANumber (spec : Format) (n : UInt64) :
    UnpackedFloat.ofUInt64 spec n ≠ .notANumber := by
  intro h
  simp only [UnpackedFloat.ofUInt64, UnpackedFloat.ofNat, UnpackedFloat.ofInt,
    UnpackedFloat.normalize, UnpackedFloat.round] at h
  split at h
  · exact roundWithAccuracy_ne_notANumber _ _ _ _ _ h
  · cases h
  · exact roundWithAccuracy_ne_notANumber _ _ _ _ _ h

theorem exists_finite_of_powerOfTen (h : p ∈ Float.exactlyRepresentablePowersOfTen) :
    ∃ s m e hm, p.toModel.unpack = .finite s m e hm := by
  have hall : ∀ p ∈ Float.exactlyRepresentablePowersOfTen,
      (match p.toModel.unpack with | .finite .. => true | _ => false) = true := by
    decide +kernel
  have hp := hall p h
  split at hp
  · exact ⟨_, _, _, _, by assumption⟩
  · cases hp

theorem ofScientific_ne_nan (m : Nat) (s : Bool) (e : Nat) :
    Float.ofScientific m s e ≠ Float.nan := by
  unfold Float.ofScientific
  split
  · rename_i hsmall
    have hm := unpack_ne_notANumber
      (ne_nan_of_unpacked (ofUInt64_ne_notANumber .binary64 m.toUInt64))
    have hsize : e < Float.exactlyRepresentablePowersOfTen.size := Nat.lt_succ_of_le hsmall.2
    obtain ⟨s', m', e', hm', hp⟩ := exists_finite_of_powerOfTen (Array.getElem_mem hsize)
    dsimp only
    split
    · refine ne_nan_of_unpacked ?_
      rw [hp]
      exact div_finite_ne_notANumber _ hm _ _ _ _
    · refine ne_nan_of_unpacked ?_
      rw [hp]
      exact mul_finite_ne_notANumber _ hm _ _ _ _
  · exact ne_nan_of_unpacked (ofScientific_ne_notANumber _ _ _)

end Double

/-- A numeral stands for a double that equals itself. -/
theorem Decimal.ofNumeral_beq_self (text : List Char) :
    (ofNumeral text == ofNumeral text) = true := by
  refine Float.beq_self_iff.mpr ?_
  simp only [ofNumeral, Literal.toFloat, toFloat, Bool.false_eq_true, if_false]
  split
  · exact Float.beq_self_iff.mp (by decide +kernel)
  split
  · exact Float.beq_self_iff.mp (by decide +kernel)
  · exact Double.ofScientific_ne_nan _ _ _

-- ---------------------------------------------------------------------------
-- The place among the whole numbers
-- ---------------------------------------------------------------------------

theorem Decimal.power_pos (base : Nat) (e : Int) (h : 0 < base) : 0 < (power base e).2 := by
  unfold power
  split
  · exact Nat.one_pos
  · exact Nat.pow_pos h

namespace Number

theorem orderWhole?_eq_of_beq {x y : Float} (h : (x == y) = true) (k : Int) :
    orderWhole? x k = orderWhole? y k := by
  have hzero : orderWhole? 0 k = orderWhole? (-0) k := rfl
  obtain ⟨-, -, rfl | ⟨rfl, rfl⟩ | ⟨rfl, rfl⟩⟩ := Float.beq_iff_ne_nan_and_eq.mp h
  · rfl
  · exact hzero
  · exact hzero.symm

theorem orderWhole?_of_eq {x : Float} {i : Int} (h : orderWhole? x i = some .eq) (k : Int) :
    orderWhole? x k = some (compare i k) := by
  unfold orderWhole? at h ⊢
  split at h
  · cases h
  · split at h <;> cases h
  · rename_i negative m e _
    have hpos : 0 < ((Decimal.power 2 e).2 : Int) := by
      exact_mod_cast Decimal.power_pos 2 e (by decide)
    simp only [Option.some.injEq, Std.compare_eq_iff_eq] at h ⊢
    rw [h]
    rcases Int.lt_trichotomy i k with hik | rfl | hik
    · rw [Std.compare_eq_lt.mpr hik, Std.compare_eq_lt]
      exact Int.mul_lt_mul_of_pos_right hik hpos
    · rw [Std.compare_eq_iff_eq.mpr rfl, Std.compare_eq_iff_eq.mpr rfl]
    · rw [Std.compare_eq_gt.mpr hik, Std.compare_eq_gt]
      exact Int.mul_lt_mul_of_pos_right hik hpos

/-- The place of a number among the whole numbers, if it has one. -/
def order? : Number → Int → Option Ordering
  | .real x, k => orderWhole? x k
  | .whole n, k => some (compare n k)
  | .truth b, k => some (compare (if b then 1 else 0) k)
  | .absent, _ => none

variable {m n : Number}

theorem compare_beq_eq (i k : Int) : (compare i k == .eq) = (i == k) := by
  rw [Bool.eq_iff_iff, beq_iff_eq, beq_iff_eq, Std.compare_eq_iff_eq]

theorem compare_beq_lt (i k : Int) : (compare i k == .lt) = decide (i < k) := by
  rw [Bool.eq_iff_iff, beq_iff_eq, decide_eq_true_iff, Std.compare_eq_lt]

theorem compare_beq_gt (i k : Int) : (compare i k == .gt) = decide (k < i) := by
  rw [Bool.eq_iff_iff, beq_iff_eq, decide_eq_true_iff, Std.compare_eq_gt]

theorem same_whole_right (m : Number) (k : Int) : m.same (.whole k) = (m.order? k == some .eq) := by
  cases m <;> simp [same, order?, whole?, compare_beq_eq]

theorem same_whole_left (m : Number) (k : Int) : same (.whole k) m = (m.order? k == some .eq) := by
  cases m <;> simp [same, order?, whole?, compare_beq_eq, BEq.comm (a := k)]

theorem less?_whole_right (hm : m ≠ .absent) (k : Int) :
    m.less? (.whole k) = some (m.order? k == some .lt) := by
  cases m <;> simp_all [less?, order?, whole?, compare_beq_lt]

theorem less?_whole_left (hm : m ≠ .absent) (k : Int) :
    less? (.whole k) m = some (m.order? k == some .gt) := by
  cases m <;> simp_all [less?, order?, whole?, compare_beq_gt]

theorem order?_of_whole? {i : Int} (h : m.whole? = some i) (k : Int) :
    m.order? k = some (compare i k) := by
  cases m <;> cases h <;> rfl

theorem order?_eq_of_same (h : m.same n = true) (k : Int) : m.order? k = n.order? k := by
  unfold same at h
  split at h
  · rfl
  · exact orderWhole?_eq_of_beq h k
  · obtain ⟨i, hi, hx⟩ := (Option.any_eq_true _ _).mp h
    rw [order?_of_whole? hi]
    exact orderWhole?_of_eq (beq_iff_eq.mp hx) k
  · obtain ⟨i, hi, hy⟩ := (Option.any_eq_true _ _).mp h
    rw [order?_of_whole? hi]
    exact (orderWhole?_of_eq (beq_iff_eq.mp hy) k).symm
  · split at h
    · rename_i i j hi hj
      rw [order?_of_whole? hi, order?_of_whole? hj, beq_iff_eq.mp h]
    · cases h

theorem absent_iff_of_same (h : m.same n = true) : m = .absent ↔ n = .absent := by
  cases m <;> cases n <;> simp_all [same, whole?]

theorem less?_whole_eq_of_same (h : m.same n = true) (k : Int) :
    m.less? (.whole k) = n.less? (.whole k) ∧ less? (.whole k) m = less? (.whole k) n := by
  by_cases hm : m = .absent
  · obtain rfl := hm
    obtain rfl := (absent_iff_of_same h).mp rfl
    exact ⟨rfl, rfl⟩
  · have hn := mt (absent_iff_of_same h).mpr hm
    simp only [less?_whole_right hm, less?_whole_right hn, less?_whole_left hm, less?_whole_left hn,
      order?_eq_of_same h, and_self]

end Number

-- ---------------------------------------------------------------------------
-- Switches and ranges
-- ---------------------------------------------------------------------------

namespace Datum

variable {d e : Datum}

theorem isVoid_eq_of_same (h : d.same e = true) : d.isVoid = e.isVoid := by
  unfold same at h
  split at h
  · rename_i m n
    have hplace := Number.order?_eq_of_same h 0
    by_cases hm : m = .absent
    · obtain rfl := hm
      obtain rfl := (Number.absent_iff_of_same h).mp rfl
      rfl
    · have hn := mt (Number.absent_iff_of_same h).mpr hm
      cases m <;> cases n <;> simp_all [isVoid, Number.same_whole_right]
  · rw [beq_iff_eq.mp h]
  · rename_i ds es
    cases ds <;> cases es <;> simp_all [sameItems, isVoid]
  · rename_i fs ss gs ts
    simp only [Bool.and_eq_true, beq_iff_eq] at h
    rw [isVoid, isVoid, Bool.eq_iff_iff, Bool.and_eq_true_iff, Bool.and_eq_true_iff]
    simp only [List.isEmpty_iff_length_eq_zero, h.1.1.1, h.1.1.2]
  · cases h

theorem holds_eq_of_same (h : d.same e = true) : d.holds = e.holds := by
  rw [holds, holds, isVoid_eq_of_same h]

theorem same_whole_eq_of_same (h : d.same e = true) (k : Int) :
    d.same (.scalar (.whole k)) = e.same (.scalar (.whole k)) := by
  unfold same at h
  split at h
  · simp only [same_scalar, Number.same_whole_right, Number.order?_eq_of_same h]
  · rw [beq_iff_eq.mp h]
  · simp [same]
  · simp [same]
  · cases h

theorem atMost?_whole_eq_of_same (h : d.same e = true) (k : Int) :
    d.atMost? (.scalar (.whole k)) = e.atMost? (.scalar (.whole k)) ∧
      atMost? (.scalar (.whole k)) d = atMost? (.scalar (.whole k)) e := by
  unfold same at h
  split at h
  · obtain ⟨hright, hleft⟩ := Number.less?_whole_eq_of_same h k
    simp only [atMost?, less?, hright, hleft, same_scalar, Number.same_whole_right,
      Number.same_whole_left, Number.order?_eq_of_same h, and_self]
  · rw [beq_iff_eq.mp h]
    exact ⟨rfl, rfl⟩
  · exact ⟨rfl, rfl⟩
  · exact ⟨rfl, rfl⟩
  · cases h

end Datum

namespace Signature

variable {s t : Signature}

theorem accepts_eq_of_same (h : s.same t = true) (count : Int) :
    s.accepts count = t.accepts count := by
  simp only [same, Bool.and_eq_true] at h
  obtain ⟨⟨-, hleast⟩, hmost⟩ := h
  rw [accepts, accepts, (Datum.atMost?_whole_eq_of_same hleast count).1,
    (Datum.atMost?_whole_eq_of_same hmost count).2]

theorem name_eq_text_iff_of_same (h : s.same t = true) {word : String} :
    s.name = .text word ↔ t.name = .text word := by
  simp only [same, Bool.and_eq_true] at h
  obtain ⟨⟨hname, -⟩, -⟩ := h
  unfold Datum.same at hname
  split at hname <;> simp_all

end Signature

end Formula
