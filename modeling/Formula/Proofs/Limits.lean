import Formula.Options
import Formula.Proofs.Balance

/-!
# Limits of nesting

A text fits at a depth when the limit allows as many levels more as its brackets are
nested, and there is room to read them. What the limit allows it allows at every
lesser depth, though it need not be a whole number.
-/

namespace Formula

variable {o : Options} {text : List Char}

-- ---------------------------------------------------------------------------
-- The greatest depth
-- ---------------------------------------------------------------------------

theorem orderWhole?_lt_of_le {x : Float} {i j : Int} (hij : i ≤ j)
    (h : Number.orderWhole? x i = some .lt) : Number.orderWhole? x j = some .lt := by
  unfold Number.orderWhole? at h ⊢
  split at h
  · cases h
  · exact h
  · rename_i negative m e _
    simp only [Option.some.injEq, Std.compare_eq_lt] at h ⊢
    have hscale : i * ((Decimal.power 2 e).2 : Int) ≤ j * (Decimal.power 2 e).2 :=
      Int.mul_le_mul_of_nonneg_right hij (Int.natCast_nonneg _)
    omega

theorem less?_whole_of_le {m : Number} {i j : Int} (hij : i ≤ j)
    (h : m.less? (.whole i) = some true) : m.less? (.whole j) = some true := by
  cases m with
  | whole n =>
    simp only [Number.less?_whole, Option.some.injEq, decide_eq_true_eq] at h ⊢
    omega
  | real x =>
    simp only [Number.less?, Number.whole?, Option.map_some, Option.some.injEq, beq_iff_eq] at h ⊢
    exact orderWhole?_lt_of_le hij h
  | truth b =>
    simp only [Number.less?, Number.whole?, Option.bind_eq_bind, Option.bind_some, Option.pure_def,
      Option.some.injEq, decide_eq_true_eq] at h ⊢
    omega
  | absent => cases h

theorem Options.isTooDeep_of_le {n n' : Nat} (hn : n ≤ n') (h : o.isTooDeep n' = false) :
    o.isTooDeep n = false := by
  cases hdeep : o.isTooDeep n with
  | false => rfl
  | true =>
    rw [isTooDeep, beq_iff_eq] at hdeep
    have hmore := less?_whole_of_le (Int.ofNat_le.mpr hn) hdeep
    rw [isTooDeep, hmore] at h
    cases h

theorem Options.isTooDeep_one (o : Options) : o.isTooDeep 1 = false := by
  rw [isTooDeep, show ((1 : Nat) : Int) = 1 from rfl, o.maxDepth_pos]
  rfl

theorem Options.isTooDeep_zero (o : Options) : o.isTooDeep 0 = false :=
  isTooDeep_of_le (Nat.zero_le 1) o.isTooDeep_one

-- ---------------------------------------------------------------------------
-- Texts that fit
-- ---------------------------------------------------------------------------

/-- Whether a text fits at a depth, with `room` levels below it. -/
structure Fits (o : Options) (room depth : Nat) (text : List Char) : Prop where
  nesting_lt : Bracket.nesting text < room
  not_tooDeep : ∀ n ≤ Bracket.nesting text, o.isTooDeep (depth + n) = false

namespace Fits

theorem inner {inside : List Char} (h : Fits o (room + 1) depth text)
    (hlt : Bracket.nesting inside < Bracket.nesting text) : Fits o room (depth + 1) inside := by
  refine ⟨Nat.lt_of_lt_of_le hlt (Nat.le_of_lt_succ h.nesting_lt), fun n hn => ?_⟩
  rw [Nat.add_assoc, Nat.add_comm 1]
  exact h.not_tooDeep (n + 1) (Nat.lt_of_le_of_lt hn hlt)

theorem here (h : Fits o room depth text) : o.isTooDeep depth = false :=
  h.not_tooDeep 0 (Nat.zero_le _)

theorem exists_room (h : Fits o room depth text) : ∃ below, room = below + 1 :=
  Nat.exists_eq_add_one_of_ne_zero (Nat.ne_zero_of_lt h.nesting_lt)

end Fits

theorem fits_of_nesting (hlimit : o.isTooDeep (Bracket.nesting text) = false)
    (hroom : Bracket.nesting text < room) : Fits o room 0 text := by
  refine ⟨hroom, fun n hn => Options.isTooDeep_of_le ?_ hlimit⟩
  rwa [Nat.zero_add]

end Formula
