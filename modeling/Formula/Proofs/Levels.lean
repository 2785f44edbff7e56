import Formula.Evaluation
import Formula.Proofs.Outcome

/-!
# Levels of evaluation

A tree is walked with a number of levels. Too few of them are the only way for a tree that
calls nothing to be too deep, and with as many levels as it takes it never is.
-/

namespace Formula

/-- The first outcome is the second one, unless it stops for want of levels. -/
def UpToLevels (x y : Except EvalError α) : Prop := x = .error .tooDeep ∨ x = y

theorem UpToLevels.refl (x : Except EvalError α) : UpToLevels x x := .inr rfl

theorem UpToLevels.bind {x y : Except EvalError α} {f g : α → Except EvalError β}
    (h : UpToLevels x y) (hf : ∀ a, UpToLevels (f a) (g a)) :
    UpToLevels (x >>= f) (y >>= g) := by
  rcases h with rfl | rfl
  · exact .inl rfl
  · cases x with
    | error err => exact .inr rfl
    | ok a => exact hf a

-- ---------------------------------------------------------------------------
-- Enough levels
-- ---------------------------------------------------------------------------

namespace Expr

variable {e : Expr} {vs : Values} {fs : FunctionTable}

theorem exists_of_isNumeric (he : e.isNumeric = true) (h : e.outcome room vs fs = .ok a) :
    ∃ x, a = some x := by
  cases room with
  | zero => cases h
  | succ room =>
    have hnumber : some <$> e.number room vs fs = .ok a := by
      cases e with
      | missing | compare => cases he
      | _ => exact h
    cases hx : e.number room vs fs with
    | error => rw [hx] at hnumber; cases hnumber
    | ok x => rw [hx] at hnumber; cases hnumber; exact ⟨x, rfl⟩

theorem height_pos (e : Expr) : 0 < e.height := by
  cases e with
  | missing | const | var => exact Nat.one_pos
  | _ => exact Nat.succ_pos _

/-- How many levels the value of a tree takes if it calls nothing. -/
def evalDepth : Expr → Nat
  | .compare _ l r => max l.evalDepth r.evalDepth + 3
  | e => e.height + 1

theorem height_lt_evalDepth (e : Expr) : e.height < e.evalDepth := by
  fun_induction evalDepth e with
  | case1 r a b iha ihb =>
    rw [height]
    omega
  | case2 => exact Nat.lt_succ_self _

theorem exists_below_compare (r : Relation) (h : (compare r a b).evalDepth ≤ room) :
    ∃ below, room = below + 3 ∧ a.evalDepth ≤ below ∧ b.evalDepth ≤ below := by
  obtain ⟨below, rfl⟩ := Nat.exists_eq_add_of_le' (Nat.le_trans (Nat.le_add_left 3 _) h)
  exact ⟨below, rfl, Nat.max_le.mp (Nat.le_of_add_le_add_right h)⟩

end Expr

end Formula
