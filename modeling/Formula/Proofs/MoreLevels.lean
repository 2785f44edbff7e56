import Formula.Proofs.Everywhere
import Formula.Proofs.Levels
import Formula.Proofs.Scripts

/-!
# More levels

What a tree gives with some number of levels it gives with any larger number, unless the smaller
one was too small for it. A body could tell the two apart if it went on after it was refused the
value of an argument for want of levels; so this is stated for bodies that give up then.
-/

namespace Formula

-- ---------------------------------------------------------------------------
-- Bodies that give up
-- ---------------------------------------------------------------------------

/-- Whenever the value of an argument takes too many levels, so does the answer. -/
def Script.GivesUp : Script → Prop
  | .answer _ => True
  | .ask _ _ next =>
    next (.error .tooDeep) = .answer (.error .tooDeep) ∧ ∀ x, (next x).GivesUp

/-- Whatever its arguments are, the body gives up when one of them takes too many levels. -/
def Body.GivesUp : Body → Prop
  | .script start => ∀ arguments, (start arguments).GivesUp
  | _ => True

theorem Body.GivesUp.toScript {b : Body} (hb : b.GivesUp) (arguments : List Datum) :
    (b.toScript arguments).GivesUp := by
  refine b.induction_toScript arguments (fun start h => ?_) (fun _ => trivial)
    fun _ _ _ _ herror hnext => ⟨herror _, hnext⟩
  subst h
  exact hb arguments

theorem Definition.body?_of_scope {d : Definition} {s : Scope}
    (h : d.body? (s.functions fs) = some b) : d.body? fs = some b := by
  unfold Scope.functions at h
  split at h
  · exact h
  · unfold body? at h ⊢
    split at h
    · exact h
    · cases h

-- ---------------------------------------------------------------------------
-- Two numbers of levels
-- ---------------------------------------------------------------------------

namespace Body

variable {eval eval' : Evaluator} {vs : Values} {fs : FunctionTable} {es : List Expr}

theorem runScript_upToLevels
    (h : ∀ e ∈ es, ∀ vs (s : Scope), UpToLevels (eval vs (s.functions fs) e)
      (eval' vs (s.functions fs) e)) {s : Script} (hs : s.GivesUp) :
    UpToLevels (runScript eval vs fs es s) (runScript eval' vs fs es s) := by
  induction s with
  | answer => exact .refl _
  | ask position scope next ih =>
    obtain ⟨hgives, hnext⟩ := hs
    have hpick : UpToLevels (pick eval (scope.values vs) (scope.functions fs) es[position]?)
        (pick eval' (scope.values vs) (scope.functions fs) es[position]?) := by
      cases he : es[position]? with
      | none => exact .refl _
      | some e =>
        cases e with
        | missing => exact .refl _
        | _ => exact h _ (List.mem_of_getElem? he) _ _
    rw [runScript, runScript]
    rcases hpick with hdeep | hsame
    · rw [hdeep, hgives]
      exact .inl rfl
    · rw [hsame]
      exact ih _ (hnext _)

end Body

namespace Expr

variable {e : Expr} {fs : FunctionTable}

theorem number_outcome_upToLevels (e : Expr) {room room' : Nat} (hroom : room ≤ room')
    (h : ∀ d ∈ e.callees, ∀ b, d.body? fs = some b → b.GivesUp) (vs : Values) :
    UpToLevels (e.number room vs fs) (e.number room' vs fs) ∧
      UpToLevels (e.outcome room vs fs) (e.outcome room' vs fs) := by
  -- A body may hide the table from its arguments, so the table varies in the induction. It is on
  -- all smaller numbers of levels, since a comparison takes several.
  induction room using Nat.strongRecOn generalizing e room' fs vs with
  | ind room ih =>
    cases room with
    | zero => exact ⟨.inl rfl, .inl rfl⟩
    | succ room =>
      obtain ⟨room', rfl⟩ := Nat.exists_eq_add_one_of_ne_zero (Nat.ne_zero_of_lt hroom)
      have hroom := Nat.le_of_succ_le_succ hroom
      have hlt : room < room + 1 := Nat.lt_succ_self room
      have hbelow : UpToLevels (some <$> e.number room vs fs) (some <$> e.number room' vs fs) :=
        (ih room hlt e hroom h vs).1.bind fun _ => .refl _
      cases e with
      | missing => exact ⟨.refl _, .refl _⟩
      | const | var => exact ⟨.refl _, hbelow⟩
      | unary op e => exact ⟨(ih room hlt e hroom h vs).1.bind fun _ => .refl _, hbelow⟩
      | binary op l r =>
        rw [callees, List.forall_mem_append] at h
        exact ⟨(ih room hlt l hroom h.1 vs).1.bind fun _ =>
          (ih room hlt r hroom h.2 vs).1.bind fun _ => .refl _, hbelow⟩
      | compare rel a b =>
        rw [callees, List.forall_mem_append] at h
        refine ⟨.refl _, ?_⟩
        match room, room' with
        | 0, _ | 1, _ => exact .inl rfl
        | room + 2, room' + 2 =>
          have hlt : room < room + 3 := Nat.lt_add_of_pos_right (by decide)
          have hroom := Nat.le_of_add_le_add_right hroom
          exact (ih room hlt a hroom h.1 vs).2.bind fun _ =>
            (ih room hlt b hroom h.2 vs).2.bind fun _ => .refl _
      | call d es =>
        obtain ⟨hd, hes⟩ := List.forall_mem_cons.mp h
        refine ⟨?_, hbelow⟩
        have harguments : ∀ e ∈ es, ∀ vs (s : Scope),
            UpToLevels (outcome room vs (s.functions fs) e)
              (outcome room' vs (s.functions fs) e) :=
          fun e he vs s => (ih room hlt e hroom (fun d hd b hb =>
            hes d (mem_calleesAll he hd) b (Definition.body?_of_scope hb)) vs).2
        simp only [number]
        cases hb : d.body? fs with
        | none => exact .refl _
        | some b =>
          simp only [Body.run_eq_runScript]
          exact (Body.runScript_upToLevels harguments ((hd b hb).toScript _)).bind fun _ => .refl _

/-- What a tree gives with some number of levels it gives with any other number of them, unless
that one is too small. -/
theorem outcome_upToLevels (h : ∀ d ∈ e.callees, ∀ b, d.body? fs = some b → b.GivesUp)
    (hvalue : e.outcome room vs fs = .ok x) (room' : Nat) :
    UpToLevels (e.outcome room' vs fs) (.ok x) := by
  rcases Nat.le_total room' room with hle | hle
  · rw [← hvalue]
    exact (number_outcome_upToLevels e hle h vs).2
  · have hmore := (number_outcome_upToLevels e hle h vs).2
    rw [hvalue] at hmore
    exact .inr (hmore.resolve_left nofun).symm

end Expr

end Formula
