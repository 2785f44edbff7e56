import Formula.Expr.Inventory
import Formula.Proofs.Outcome

/-!
# What holds everywhere in a tree

A property of every tree inside a tree, that tree included. Where all of them
fit, the inventory of a tree that is not too high finds its names.
-/

namespace Formula

theorem mem_keepFirst (h : d ∈ keepFirst ds) : d ∈ ds := by
  induction ds with
  | nil => exact h
  | cons d' ds ih =>
    rcases List.mem_cons.mp h with rfl | h
    · exact List.mem_cons_self
    · exact List.mem_cons_of_mem _ (ih (List.mem_of_mem_filter h))

namespace Expr

variable {P Q : Expr → Prop} {fits : Expr → Bool} {e : Expr}

mutual
def Everywhere (P : Expr → Prop) : Expr → Prop
  | .missing => P .missing
  | .const d => P (.const d)
  | .var name => P (.var name)
  | .unary op e => P (.unary op e) ∧ e.Everywhere P
  | .binary op l r => P (.binary op l r) ∧ l.Everywhere P ∧ r.Everywhere P
  | .compare rel l r => P (.compare rel l r) ∧ l.Everywhere P ∧ r.Everywhere P
  | .call d es => P (.call d es) ∧ EverywhereAll P es
def EverywhereAll (P : Expr → Prop) : List Expr → Prop
  | [] => True
  | e :: es => e.Everywhere P ∧ EverywhereAll P es
end

theorem everywhereAll_iff : EverywhereAll P es ↔ ∀ e ∈ es, e.Everywhere P := by
  induction es with
  | nil => simp [EverywhereAll]
  | cons e es ih => rw [EverywhereAll, ih, List.forall_mem_cons]

mutual
theorem Everywhere.mono (hP : ∀ e, P e → Q e) : (e : Expr) → e.Everywhere P → e.Everywhere Q
  | .missing, h => hP _ h
  | .const _, h => hP _ h
  | .var _, h => hP _ h
  | .unary _ e, h => ⟨hP _ h.1, Everywhere.mono hP e h.2⟩
  | .binary _ l r, h => ⟨hP _ h.1, Everywhere.mono hP l h.2.1, Everywhere.mono hP r h.2.2⟩
  | .compare _ l r, h => ⟨hP _ h.1, Everywhere.mono hP l h.2.1, Everywhere.mono hP r h.2.2⟩
  | .call _ es, h => ⟨hP _ h.1, EverywhereAll.mono hP es h.2⟩
theorem EverywhereAll.mono (hP : ∀ e, P e → Q e) :
    (es : List Expr) → EverywhereAll P es → EverywhereAll Q es
  | [], _ => trivial
  | e :: es, h => ⟨Everywhere.mono hP e h.1, EverywhereAll.mono hP es h.2⟩
end

theorem eraseAll_eq (es : List Expr) : eraseAll es = es.map erase := by
  induction es with
  | nil => rfl
  | cons e es ih => rw [eraseAll, ih, List.map_cons]

theorem mem_variableNamesAll (he : e ∈ es) (hname : name ∈ e.variableNames) :
    name ∈ variableNamesAll es := by
  induction es with
  | nil => cases he
  | cons e' es ih =>
    rw [variableNamesAll, List.mem_append]
    rcases List.mem_cons.mp he with rfl | he
    · exact .inl hname
    · exact .inr (ih he)

theorem mem_calleesAll {d : Definition} (he : e ∈ es) (hd : d ∈ e.callees) : d ∈ calleesAll es := by
  induction es with
  | nil => cases he
  | cons e' es ih =>
    rw [calleesAll, List.mem_append]
    rcases List.mem_cons.mp he with rfl | he
    · exact .inl hd
    · exact .inr (ih he)

theorem Everywhere.self (h : Everywhere P e) : P e := by
  cases e with
  | missing | const | var => exact h
  | _ => exact h.1

theorem height_le_heightAll (h : e ∈ es) : e.height ≤ heightAll es := by
  induction es with
  | nil => cases h
  | cons e' es ih =>
    rw [heightAll]
    rcases List.mem_cons.mp h with rfl | h
    · exact Nat.le_max_left ..
    · exact Nat.le_trans (ih h) (Nat.le_max_right ..)

theorem walk_eq_ok (h : Everywhere (fun e => fits e = true ∧ e ≠ .missing) e)
    (hroom : e.height ≤ room) : walk fits room e = .ok () := by
  induction room generalizing e with
  | zero => cases e <;> simp [height] at hroom
  | succ room ih =>
    unfold walk
    rw [if_pos h.self.1]
    cases e with
    | missing => exact absurd rfl h.2
    | const | var => rfl
    | unary op e => exact ih h.2 (Nat.le_of_succ_le_succ hroom)
    | binary op l r =>
      have hmax := Nat.le_of_succ_le_succ hroom
      exact bind_eq_ok.mpr ⟨(), ih h.2.1 (Nat.le_trans (Nat.le_max_left ..) hmax),
        ih h.2.2 (Nat.le_trans (Nat.le_max_right ..) hmax)⟩
    | compare rel l r =>
      have hmax := Nat.le_of_succ_le_succ hroom
      exact bind_eq_ok.mpr ⟨(), ih h.2.1 (Nat.le_trans (Nat.le_max_left ..) hmax),
        ih h.2.2 (Nat.le_trans (Nat.le_max_right ..) hmax)⟩
    | call d es =>
      refine forM_eq_ok.mpr fun e he => ih (everywhereAll_iff.mp h.2 e he) ?_
      exact Nat.le_trans (height_le_heightAll he) (Nat.le_of_succ_le_succ hroom)

theorem everywhere_of_walk (h : walk fits room e = .ok u) :
    Everywhere (fun e => fits e = true ∧ e ≠ .missing) e := by
  induction room generalizing e u with
  | zero => cases h
  | succ room ih =>
    unfold walk at h
    split at h
    case isFalse => cases h
    rename_i hfits
    cases e with
    | missing => cases h
    | const | var => exact ⟨hfits, nofun⟩
    | unary op e => exact ⟨⟨hfits, nofun⟩, ih h⟩
    | binary op l r =>
      obtain ⟨_, hl, hr⟩ := bind_eq_ok.mp h
      exact ⟨⟨hfits, nofun⟩, ih hl, ih hr⟩
    | compare rel l r =>
      obtain ⟨_, hl, hr⟩ := bind_eq_ok.mp h
      exact ⟨⟨hfits, nofun⟩, ih hl, ih hr⟩
    | call d es =>
      exact ⟨⟨hfits, nofun⟩, everywhereAll_iff.mpr fun e he => ih (forM_eq_ok.mp h e he)⟩

theorem usedVariablesWithin_eq_ok :
    e.usedVariablesWithin room = .ok names ↔ e.walk fitsVariables room = .ok () ∧
      NameSet.ofData? e.variableNames = some names := by
  rw [usedVariablesWithin, bind_eq_ok]
  constructor
  · rintro ⟨⟨⟩, hw, h⟩
    split at h
    · rename_i names' hn
      exact ⟨hw, hn.trans (congrArg some (pure_eq_ok.mp h))⟩
    · cases h
  · rintro ⟨hw, hn⟩
    exact ⟨(), hw, by rw [hn]; rfl⟩

theorem usedFunctionsWithin_eq_ok :
    e.usedFunctionsWithin room = .ok table ↔ e.walk fitsCalls room = .ok () ∧
      .ofList (e.callees.map (·.erase)) = table := by
  rw [usedFunctionsWithin, bind_eq_ok]
  constructor
  · rintro ⟨⟨⟩, hw, h⟩
    exact ⟨hw, pure_eq_ok.mp h⟩
  · rintro ⟨hw, h⟩
    exact ⟨(), hw, pure_eq_ok.mpr h⟩

theorem usedVariables_eq_ok :
    e.usedVariables = .ok names ↔ e.walk fitsVariables levels = .ok () ∧
      NameSet.ofData? e.variableNames = some names :=
  usedVariablesWithin_eq_ok

theorem usedFunctions_eq_ok :
    e.usedFunctions = .ok table ↔ e.walk fitsCalls levels = .ok () ∧
      .ofList (e.callees.map (·.erase)) = table :=
  usedFunctionsWithin_eq_ok

end Expr

end Formula
