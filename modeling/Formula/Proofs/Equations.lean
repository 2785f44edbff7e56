import Formula.Proofs.Levels

/-!
# Equations and their truth

An equation is true just when it has a value, as long as one of its sides has a value. Two sides
without a value are equal too: such an equation is true, and it has no value. That takes an equation
in each side, since a tree without equations does not lack a value.
-/

namespace Formula

namespace Relation

variable {x y : Option Float}

theorem truth_equals (h : ¬(x = none ∧ y = none)) :
    truth .equals x y = some (if (value .equals x y).isSome then 1.0 else 0.0) := by
  cases x with
  | some a => cases hsame : some a == y <;> simp [truth, value, hsame]
  | none =>
    cases y with
    | some b => rfl
    | none => exact absurd ⟨rfl, rfl⟩ h

theorem value_equals_of_xor (h : x = none ↔ y ≠ none) : value .equals x y = none := by
  cases x <;> cases y <;> simp_all [value]

theorem exists_value (r : Relation) (h : r ≠ .equals) (a b : Float) :
    ∃ c, r.value (some a) (some b) = some c := by
  cases r with
  | equals => exact absurd rfl h
  | _ => exact ⟨_, rfl⟩

end Relation

variable {vs : Values} {fs : FunctionTable}

namespace Expr

/-- Whether one of the comparisons at the top of the tree is an equation. -/
def equates : Expr → Bool
  | .compare r a b => r == .equals || a.equates || b.equates
  | _ => false

theorem exists_of_equates_eq_false {e : Expr} (he : e.equates = false)
    (h : e.outcome room vs fs = .ok x) : ∃ a, x = some a := by
  fun_induction equates e generalizing room x with
  | case1 rel l r ihl ihr =>
    simp only [Bool.or_eq_false_iff, beq_eq_false_iff_ne] at he
    obtain ⟨below, hsides⟩ : ∃ below, (do
        let x ← outcome below vs fs l
        let y ← outcome below vs fs r
        return rel.value x y) = Except.ok x := by
      match room with
      | 0 | 1 | 2 => cases h
      | below + 3 => exact ⟨below, h⟩
    obtain ⟨x, hl, hsides⟩ := bind_eq_ok.mp hsides
    obtain ⟨y, hr, hsides⟩ := bind_eq_ok.mp hsides
    obtain ⟨a, rfl⟩ := ihl he.1.2 hl
    obtain ⟨b, rfl⟩ := ihr he.2 hr
    obtain ⟨c, hc⟩ := rel.exists_value he.1.1 a b
    exact ⟨c, (pure_eq_ok.mp hsides).symm.trans hc⟩
  | case2 e hcompare =>
    cases e with
    | missing => cases room <;> cases h
    | compare rel l r => exact absurd rfl (hcompare rel l r)
    | _ => exact exists_of_isNumeric rfl h

end Expr

variable {l r : Expr} {n m : Nat}

/-- An equation whose sides have the values `x` and `y`, or none, with the levels that are left for
them. It has a value just when it is true, and it has none and is false if one side has none; but
it is true if both sides have none, which takes an equation in each of them. `Expr.value` and
`Expr.truth` are those with `Expr.levels` levels. -/
theorem truth_of_equation
    (hl : l.outcome n vs fs = .ok x ∧ l.outcome m vs fs = .ok x)
    (hr : r.outcome n vs fs = .ok y ∧ r.outcome m vs fs = .ok y) :
    let e := Expr.compare .equals l r
    (e.value vs fs = e.outcome Expr.levels vs fs ∧
      e.truth vs fs = e.truthWithin Expr.levels vs fs) ∧
    ∃ v t, e.outcome (n + 3) vs fs = .ok v ∧ e.truthWithin (m + 2) vs fs = .ok (some t) ∧
      (¬(x = none ∧ y = none) → t = if v.isSome then 1.0 else 0.0) ∧
      ((x = none ↔ y ≠ none) → v = none ∧ t = 0.0) ∧
      (x = none ∧ y = none → v = none ∧ t = 1.0) ∧
      (l.equates = false ∨ r.equates = false → ¬(x = none ∧ y = none)) := by
  intro e
  have hvalue : e.outcome (n + 3) vs fs = .ok (Relation.value .equals x y) := by
    simp only [e, Expr.outcome, hl.1, hr.1, ok_bind]
    rfl
  have htruth : e.truthWithin (m + 2) vs fs = .ok (Relation.truth .equals x y) := by
    simp only [e, Expr.truthWithin, hl.2, hr.2, ok_bind]
    rfl
  have hagree (h : ¬(x = none ∧ y = none)) : (if x == y then 1.0 else 0.0) =
      if (Relation.value .equals x y).isSome then 1.0 else 0.0 :=
    Option.some.inj (Relation.truth_equals h)
  refine ⟨⟨rfl, rfl⟩, _, if x == y then 1.0 else 0.0, hvalue, htruth, hagree, fun h => ?_, ?_, ?_⟩
  · have hnone := Relation.value_equals_of_xor h
    refine ⟨hnone, (hagree fun hboth => h.mp hboth.1 hboth.2).trans ?_⟩
    rw [hnone]
    rfl
  · rintro ⟨rfl, rfl⟩
    exact ⟨rfl, rfl⟩
  · rintro (hnone | hnone) ⟨rfl, rfl⟩
    · obtain ⟨_, ha⟩ := Expr.exists_of_equates_eq_false hnone hl.1
      cases ha
    · obtain ⟨_, ha⟩ := Expr.exists_of_equates_eq_false hnone hr.1
      cases ha

/-- An equation with a side that has no value, and an equation of two such sides. -/
theorem truth_of_equation_nested :
    let unequal (i j : Int) : Expr := .compare .equals (Expr.whole i) (Expr.whole j)
    let one : Expr := .compare .equals (unequal 1 2) (.named "x")
    let both : Expr := .compare .equals (unequal 1 2) (unequal 3 4)
    let vs : Values := .x (.whole 2)
    (one.value vs ∅ = .ok none ∧ one.truth vs ∅ = .ok (some 0.0)) ∧
      both.value vs ∅ = .ok none ∧ both.truth vs ∅ = .ok (some 1.0) := by
  intro unequal one both vs
  have hx : (Expr.named "x").outcome 997 vs ∅ = .ok (some 2.0) ∧
      (Expr.named "x").outcome 998 vs ∅ = .ok (some 2.0) := ⟨rfl, rfl⟩
  have hleft : (unequal 1 2).outcome 997 vs ∅ = .ok none ∧
      (unequal 1 2).outcome 998 vs ∅ = .ok none := ⟨rfl, rfl⟩
  have hright : (unequal 3 4).outcome 997 vs ∅ = .ok none ∧
      (unequal 3 4).outcome 998 vs ∅ = .ok none := ⟨rfl, rfl⟩
  constructor
  · obtain ⟨⟨hv, ht⟩, v, t, hvalue, htruth, -, hfalse, -⟩ := truth_of_equation hleft hx
    obtain ⟨rfl, rfl⟩ := hfalse (by simp)
    exact ⟨hv.trans hvalue, ht.trans htruth⟩
  · obtain ⟨⟨hv, ht⟩, v, t, hvalue, htruth, -, -, htrue, -⟩ := truth_of_equation hleft hright
    obtain ⟨rfl, rfl⟩ := htrue ⟨rfl, rfl⟩
    exact ⟨hv.trans hvalue, ht.trans htruth⟩

end Formula
