import Formula.Proofs.EqualNumbers

/-!
# Exact values

Two doubles that are the same whole number are equal, so equality of numbers is symmetric and
transitive. What is looked up by a name, or by a signature, is therefore the same for equal names
and for equal signatures.
-/

namespace Formula

-- ---------------------------------------------------------------------------
-- The size of a double
-- ---------------------------------------------------------------------------

namespace Decimal

/-- A finite double without its sign, as a multiple of the least positive one. -/
def magnitude (scale fraction : Nat) : Nat :=
  if scale = 0 then fraction else (2 ^ 52 + fraction) * 2 ^ (scale - 1)

theorem magnitude_lt (hm : m < 2 ^ 52) (h : s < t) : magnitude s m < magnitude t n := by
  have ht : t ≠ 0 := by omega
  have hleast : 2 ^ 52 * 2 ^ (t - 1) ≤ magnitude t n := by
    simp only [magnitude, ht, if_false]
    exact Nat.mul_le_mul_right _ (Nat.le_add_right ..)
  refine Nat.lt_of_lt_of_le ?_ hleast
  by_cases hs : s = 0
  · simp only [magnitude, hs, if_true]
    exact Nat.lt_of_lt_of_le hm (Nat.le_mul_of_pos_right _ (Nat.two_pow_pos _))
  · have hpow : 2 ^ (s - 1) * 2 ≤ 2 ^ (t - 1) := by
      rw [← Nat.pow_succ]
      exact Nat.pow_le_pow_right (by decide) (by omega)
    simp only [magnitude, hs, if_false]
    calc (2 ^ 52 + m) * 2 ^ (s - 1)
        < (2 ^ 52 * 2) * 2 ^ (s - 1) := Nat.mul_lt_mul_of_pos_right (by omega) (Nat.two_pow_pos _)
      _ = 2 ^ 52 * (2 ^ (s - 1) * 2) := by rw [Nat.mul_assoc, Nat.mul_comm 2]
      _ ≤ 2 ^ 52 * 2 ^ (t - 1) := Nat.mul_le_mul_left _ hpow

theorem magnitude_inj (hm : m < 2 ^ 52) (hn : n < 2 ^ 52) (h : magnitude s m = magnitude t n) :
    s = t ∧ m = n := by
  rcases Nat.lt_trichotomy s t with hst | rfl | hst
  · exact absurd h (magnitude_lt hm hst).ne
  · refine ⟨rfl, ?_⟩
    by_cases hs : s = 0
    · simpa [magnitude, hs] using h
    · simpa [magnitude, hs] using h
  · exact absurd h (magnitude_lt hn hst).ne'

theorem power_scaled {e : Int} {k : Nat} (h : -(k : Int) ≤ e) :
    (power 2 e).1 * 2 ^ k = 2 ^ (e + k).toNat * (power 2 e).2 := by
  by_cases he : 0 ≤ e
  · have hsum : (e + k).toNat = e.toNat + k := by omega
    simp only [power, he, if_true, Nat.mul_one, hsum]
    exact (Nat.pow_add 2 _ _).symm
  · have hsum : k = (e + k).toNat + (-e).toNat := by omega
    simp only [power, he, if_false, Nat.one_mul]
    conv_lhs => rw [hsum]
    exact Nat.pow_add 2 _ _

structure HasFields (x : Float) (negative : Bool) (scale fraction : Nat) : Prop where
  bits : x.toBits.toNat = (if negative then 2 ^ 63 else 0) + scale * 2 ^ 52 + fraction
  scale_lt : scale < 2047
  fraction_lt : fraction < 2 ^ 52

theorem HasFields.eq {x y : Float} (hx : HasFields x negative scale fraction)
    (hy : HasFields y negative scale fraction) : x = y :=
  Float.toBits_inj.mp (UInt64.toNat_inj.mp (hx.bits.trans hy.bits.symm))

theorem HasFields.ne_nan (h : HasFields x negative scale fraction) : x ≠ Float.nan := by
  rintro rfl
  have hnan : Float.nan.toBits.toNat = 2047 * 2 ^ 52 + 2 ^ 51 := by decide +kernel
  obtain ⟨hbits, hscale, hfraction⟩ := h
  rw [hnan] at hbits
  split at hbits <;> omega

theorem hasFields_zero : HasFields 0 false 0 0 := ⟨by decide +kernel, by decide, by decide⟩

theorem hasFields_neg_zero : HasFields (-0) true 0 0 := ⟨by decide +kernel, by decide, by decide⟩

theorem magnitude_eq_zero (h : magnitude scale fraction = 0) : scale = 0 ∧ fraction = 0 := by
  refine magnitude_inj ?_ (Nat.two_pow_pos _) (h.trans rfl)
  unfold magnitude at h
  split at h
  · omega
  · exact absurd h (Nat.mul_pos (by omega) (Nat.two_pow_pos _)).ne'

theorem fields_of_reading {x : Float} (h : Reading.ofFloat x = .finite negative m e) :
    ∃ scale fraction, HasFields x negative scale fraction ∧ -((1074 : Nat) : Int) ≤ e ∧
      m * 2 ^ (e + (1074 : Nat)).toNat = magnitude scale fraction := by
  have hsize := x.toBits.toNat_lt
  have hsign : (x.toBits.toNat / 2 ^ 63 == 1) = negative → x.toBits.toNat =
      (if negative then 2 ^ 63 else 0) + x.toBits.toNat / 2 ^ 52 % 2 ^ 11 * 2 ^ 52 +
        x.toBits.toNat % 2 ^ 52 := by
    intro hs
    subst hs
    simp only [beq_iff_eq]
    split <;> omega
  simp only [Reading.ofFloat, Nat.pow_eq, beq_iff_eq] at h
  split at h
  · split at h <;> cases h
  rename_i hlast
  split at h <;> obtain ⟨hneg, rfl, rfl⟩ := Reading.finite.inj h
  · rename_i hscale
    refine ⟨0, x.toBits.toNat % 2 ^ 52, ⟨?_, by decide, by omega⟩, by omega, ?_⟩
    · exact hscale ▸ hsign hneg
    · simp [magnitude]
  · rename_i hscale
    refine ⟨_, _, ⟨hsign hneg, by omega, by omega⟩, by omega, ?_⟩
    have hexponent : ((x.toBits.toNat / 2 ^ 52 % 2 ^ 11 : Nat) - 1075 + (1074 : Nat) : Int).toNat =
        x.toBits.toNat / 2 ^ 52 % 2 ^ 11 - 1 := by omega
    rw [magnitude, if_neg hscale, hexponent]

end Decimal

namespace Number

open Decimal

theorem fields_of_orderWhole? {x : Float} {i : Int} (h : orderWhole? x i = some .eq) :
    ∃ negative scale fraction, HasFields x negative scale fraction ∧
      (if negative then -(magnitude scale fraction : Int) else magnitude scale fraction) =
        i * (2 ^ 1074 : Nat) := by
  unfold orderWhole? at h
  split at h
  · cases h
  · split at h <;> cases h
  rename_i negative m e hreading
  obtain ⟨scale, fraction, hfields, he, hsize⟩ := fields_of_reading hreading
  refine ⟨negative, scale, fraction, hfields, ?_⟩
  simp only [Option.some.injEq, Std.compare_eq_iff_eq] at h
  have hscaled := power_scaled he
  have hpos : ((power 2 e).2 : Int) ≠ 0 := by
    exact_mod_cast (power_pos 2 e (by decide)).ne'
  rw [← hsize]
  generalize (2 ^ 1074 : Nat) = unit at *
  refine mul_right_cancel₀ hpos ?_
  calc _ = (if negative then -(m : Int) else m) *
        ((2 ^ (e + (1074 : Nat)).toNat * (power 2 e).2 : Nat) : Int) := by
        split <;> push_cast <;> ring
    _ = (if negative then -(m : Int) else m) * (power 2 e).1 * unit := by
        rw [← hscaled]; push_cast; ring
    _ = i * unit * (power 2 e).2 := by rw [h]; ring

/-- Doubles that are the same whole number are equal, though zero has two forms. -/
theorem beq_of_orderWhole? {x y : Float} {i : Int} (hx : orderWhole? x i = some .eq)
    (hy : orderWhole? y i = some .eq) : (x == y) = true := by
  obtain ⟨sign, scale, fraction, hfields, hvalue⟩ := fields_of_orderWhole? hx
  obtain ⟨sign', scale', fraction', hfields', hvalue'⟩ := fields_of_orderWhole? hy
  refine Float.beq_iff_ne_nan_and_eq.mpr ⟨hfields.ne_nan, hfields'.ne_nan, ?_⟩
  have heq := hvalue.trans hvalue'.symm
  by_cases hsign : sign = sign'
  · subst hsign
    have hsize : magnitude scale fraction = magnitude scale' fraction' := by
      split at heq <;> omega
    obtain ⟨rfl, rfl⟩ := magnitude_inj hfields.fraction_lt hfields'.fraction_lt hsize
    exact .inl (hfields.eq hfields')
  · have hsize : magnitude scale fraction = 0 ∧ magnitude scale' fraction' = 0 := by
      cases sign <;> cases sign' <;> simp at hsign heq <;> omega
    obtain ⟨rfl, rfl⟩ := magnitude_eq_zero hsize.1
    obtain ⟨rfl, rfl⟩ := magnitude_eq_zero hsize.2
    cases sign <;> cases sign' <;> first | exact absurd rfl hsign | skip
    · exact .inr (.inl ⟨hfields.eq hasFields_zero, hfields'.eq hasFields_neg_zero⟩)
    · exact .inr (.inr ⟨hfields.eq hasFields_neg_zero, hfields'.eq hasFields_zero⟩)

variable {m n k : Number}

theorem order?_eq_of_whole? {i : Int} (h : m.whole? = some i) : m.order? i = some .eq := by
  simp [order?_of_whole? h]

theorem same_iff : m.same n = true ↔ (m = .absent ∧ n = .absent) ∨
    (∃ x y, m = .real x ∧ n = .real y ∧ (x == y) = true) ∨
      ∃ i, m.order? i = some .eq ∧ n.order? i = some .eq := by
  constructor
  · intro h
    unfold same at h
    split at h
    · exact .inl ⟨rfl, rfl⟩
    · exact .inr (.inl ⟨_, _, rfl, rfl, h⟩)
    · obtain ⟨i, hi, hx⟩ := (Option.any_eq_true _ _).mp h
      exact .inr (.inr ⟨i, beq_iff_eq.mp hx, order?_eq_of_whole? hi⟩)
    · obtain ⟨i, hi, hy⟩ := (Option.any_eq_true _ _).mp h
      exact .inr (.inr ⟨i, order?_eq_of_whole? hi, beq_iff_eq.mp hy⟩)
    · split at h
      · rename_i i j hi hj
        obtain rfl := beq_iff_eq.mp h
        exact .inr (.inr ⟨i, order?_eq_of_whole? hi, order?_eq_of_whole? hj⟩)
      · cases h
  · rintro (⟨rfl, rfl⟩ | ⟨x, y, rfl, rfl, h⟩ | ⟨i, hm, hn⟩)
    · rfl
    · exact h
    · cases m <;> cases n <;> simp_all [same, order?, whole?]
      exact beq_of_orderWhole? hm hn

theorem same_symm (h : m.same n = true) : n.same m = true := by
  rcases same_iff.mp h with ⟨hm, hn⟩ | ⟨x, y, hm, hn, h⟩ | ⟨i, hm, hn⟩
  · exact same_iff.mpr (.inl ⟨hn, hm⟩)
  · exact same_iff.mpr (.inr (.inl ⟨y, x, hn, hm, BEq.symm h⟩))
  · exact same_iff.mpr (.inr (.inr ⟨i, hn, hm⟩))

theorem same_trans (h : m.same n = true) (h' : n.same k = true) : m.same k = true := by
  rcases same_iff.mp h' with ⟨rfl, rfl⟩ | ⟨y, z, rfl, rfl, hyz⟩ | ⟨i, hn, hk⟩
  · exact h
  · rcases same_iff.mp h with ⟨-, hn⟩ | ⟨x, y', rfl, hn, hxy⟩ | ⟨i, hm, hn⟩
    · cases hn
    · cases hn
      exact same_iff.mpr (.inr (.inl ⟨x, z, rfl, rfl, BEq.trans hxy hyz⟩))
    · exact same_iff.mpr (.inr (.inr ⟨i, hm, (order?_eq_of_same h' i).symm.trans hn⟩))
  · exact same_iff.mpr (.inr (.inr ⟨i, (order?_eq_of_same h i).trans hn, hk⟩))

end Number

-- ---------------------------------------------------------------------------
-- Data without parts
-- ---------------------------------------------------------------------------

namespace Datum

variable {d e : Datum}

theorem isAtom_eq_of_same (h : d.same e = true) : d.isAtom = e.isAtom := by
  cases d <;> cases e <;> first | rfl | simp [same] at h

theorem same_symm (hd : d.isAtom = true) (h : d.same e = true) : e.same d = true := by
  cases d <;> cases e <;> simp_all [same, isAtom, Number.same_symm]

theorem same_trans (he : e.isAtom = true) (h : d.same e = true) (h' : e.same f = true) :
    d.same f = true := by
  cases e with
  | scalar n =>
    cases d <;> cases f <;> simp_all [same]
    exact Number.same_trans h h'
  | text s => cases d <;> cases f <;> simp_all [same]
  | list | mapping => cases he

theorem same_eq_of_same (hd : d.isAtom = true) (h : d.same e = true) (c : Datum) :
    c.same d = c.same e := by
  have he : e.isAtom = true := isAtom_eq_of_same h ▸ hd
  rw [Bool.eq_iff_iff]
  exact ⟨fun hc => same_trans hd hc h, fun hc => same_trans he hc (same_symm hd h)⟩

theorem same_eq_of_same_left (hc : c.isAtom = true) (h : d.same e = true) :
    d.same c = e.same c := by
  rw [Bool.eq_iff_iff]
  constructor
  · intro hd
    have hatom : d.isAtom = true := isAtom_eq_of_same hd ▸ hc
    exact same_trans hatom (same_symm hatom h) hd
  · intro he
    exact same_trans (isAtom_eq_of_same he ▸ hc) h he

end Datum

theorem Signature.same_eq_of_same {s t : Signature} (hs : s.isAtomic = true) (h : s.same t = true)
    (r : Signature) : r.same s = r.same t := by
  simp only [isAtomic, same, Bool.and_eq_true] at hs h
  simp only [same, Datum.same_eq_of_same hs.1.1 h.1.1, Datum.same_eq_of_same hs.1.2 h.1.2,
    Datum.same_eq_of_same hs.2 h.2]

end Formula
