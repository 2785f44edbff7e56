import Formula.Proofs.Scripts
import Formula.Proofs.StoredTrees

/-!
# Bodies that are given late

A tree that was stored has lost the bodies of its functions. If the table of functions gives them
back, it is evaluated as before: a call comes to the same body, and a body that hands the table on
to its arguments sees the same values of them.
-/

namespace Formula

-- ---------------------------------------------------------------------------
-- Bodies that hand the table on
-- ---------------------------------------------------------------------------

/-- Every argument is evaluated with the functions of the table. -/
def Script.KeepsFunctions : Script → Prop
  | .answer _ => True
  | .ask _ scope next => scope.keepsFunctions = true ∧ ∀ x, (next x).KeepsFunctions

def Body.KeepsFunctions : Body → Prop
  | .isolated => False
  | .script start => ∀ arguments, (start arguments).KeepsFunctions
  | _ => True

theorem Body.KeepsFunctions.toScript {b : Body} (hb : b.KeepsFunctions) (arguments : List Datum) :
    (b.toScript arguments).KeepsFunctions := by
  have hisolated : b ≠ .isolated := by
    rintro rfl
    exact hb
  refine b.induction_toScript arguments (fun start h => ?_) (fun _ => trivial)
    fun _ _ _ hscope _ hnext => ⟨hscope hisolated, hnext⟩
  subst h
  exact hb arguments

theorem Expr.erase_eq_missing (e : Expr) : e.erase = .missing ↔ e = .missing := by
  cases e <;> simp [erase]

mutual
theorem Expr.toDatum_erase : (e : Expr) → e.erase.toDatum = e.toDatum
  | .missing | .const _ | .var _ => rfl
  | .unary _ e => by simp only [erase, toDatum, toDatum_erase e]
  | .binary _ l r | .compare _ l r => by
    simp only [erase, toDatum, toDatum_erase l, toDatum_erase r]
  | .call d es => by simp only [erase, toDatum, toDatumAll_eraseAll es, Definition.erase]
theorem Expr.toDatumAll_eraseAll : (es : List Expr) → toDatumAll (eraseAll es) = toDatumAll es
  | [] => rfl
  | e :: es => by rw [eraseAll, toDatumAll, toDatumAll, toDatum_erase e, toDatumAll_eraseAll es]
end

namespace Body

variable {eval : Evaluator} {vs : Values} {fs : FunctionTable} {es : List Expr}

theorem runScript_erase (h : ∀ e ∈ es, ∀ vs, eval vs fs e.erase = eval vs fs e) {s : Script}
    (hs : s.KeepsFunctions) :
    runScript eval vs fs (es.map Expr.erase) s = runScript eval vs fs es s := by
  induction s with
  | answer => rfl
  | ask position scope next ih =>
    obtain ⟨hscope, hnext⟩ := hs
    have hfs : scope.functions fs = fs := by rw [Scope.functions, hscope, if_pos rfl]
    have hpick : pick eval (scope.values vs) fs (es[position]?.map Expr.erase) =
        pick eval (scope.values vs) fs es[position]? :=
      pick_congr Expr.erase_eq_missing fun e he => h e (List.mem_of_getElem? he) _
    rw [runScript, runScript, hfs, List.getElem?_map, hpick]
    exact ih _ (hnext _)

theorem run_erase (h : ∀ e ∈ es, ∀ vs, eval vs fs e.erase = eval vs fs e) {b : Body}
    (hb : b.KeepsFunctions) : run eval vs fs (Expr.eraseAll es) b = run eval vs fs es b := by
  rw [run_eq_runScript, run_eq_runScript, Expr.toDatumAll_eraseAll, Expr.eraseAll_eq]
  exact runScript_erase h (hb.toScript _)

end Body

-- ---------------------------------------------------------------------------
-- Calls that come to the same body
-- ---------------------------------------------------------------------------

/-- The table gives a call the body of its definition, and a body that hands the table on. -/
structure Definition.Bound (fs : FunctionTable) (d : Definition) : Prop where
  body?_erase : d.erase.body? fs = d.body? fs
  keepsFunctions : ∀ b, d.body? fs = some b → b.KeepsFunctions

namespace Expr

variable {fs : FunctionTable} {e : Expr}

theorem number_outcome_erase (e : Expr) (room : Nat) (vs : Values)
    (h : ∀ d ∈ e.callees, d.Bound fs) :
    number room vs fs e.erase = number room vs fs e ∧
      outcome room vs fs e.erase = outcome room vs fs e := by
  -- A body may evaluate its arguments under other values, so the values vary in the induction. It
  -- is on all smaller numbers of levels, since a comparison takes several.
  induction room using Nat.strongRecOn generalizing e vs with
  | ind room ih =>
    cases room with
    | zero => exact ⟨rfl, rfl⟩
    | succ room =>
      have hlt : room < room + 1 := Nat.lt_succ_self room
      -- The value of a numeric tree is its number, one level further down.
      have hbelow := congrArg (some <$> ·) (ih room hlt e vs h).1
      cases e with
      | missing | const | var => exact ⟨rfl, rfl⟩
      | unary op e =>
        have he := (ih room hlt e vs h).1
        exact ⟨by simp only [erase, number, he], hbelow⟩
      | binary op l r =>
        rw [callees, List.forall_mem_append] at h
        have hl := (ih room hlt l vs h.1).1
        have hr := (ih room hlt r vs h.2).1
        exact ⟨by simp only [erase, number, hl, hr], hbelow⟩
      | compare rel a b =>
        rw [callees, List.forall_mem_append] at h
        refine ⟨rfl, ?_⟩
        match room with
        | 0 | 1 => rfl
        | room + 2 =>
          have hlt : room < room + 3 := Nat.lt_add_of_pos_right (by decide)
          have ha := (ih room hlt a vs h.1).2
          have hb := (ih room hlt b vs h.2).2
          simp only [erase, outcome, ha, hb]
      | call d es =>
        obtain ⟨hd, hes⟩ := List.forall_mem_cons.mp h
        have harguments : ∀ e ∈ es, ∀ vs, outcome room vs fs e.erase = outcome room vs fs e :=
          fun e he vs => (ih room hlt e vs fun d hd => hes d (mem_calleesAll he hd)).2
        refine ⟨?_, hbelow⟩
        simp only [erase, number, hd.body?_erase]
        cases hb : d.body? fs with
        | none => rfl
        | some b => simp only [Body.run_erase harguments (hd.keepsFunctions b hb)]

theorem truthWithin_erase (e : Expr) (room : Nat) (vs : Values)
    (h : ∀ d ∈ e.callees, d.Bound fs) :
    e.erase.truthWithin room vs fs = e.truthWithin room vs fs := by
  cases e with
  | compare rel a b =>
    rw [callees, List.forall_mem_append] at h
    match room with
    | 0 | 1 => rfl
    | room + 2 =>
      have ha := (a.number_outcome_erase room vs h.1).2
      have hb := (b.number_outcome_erase room vs h.2).2
      simp only [erase, truthWithin, ha, hb]
  | _ => exact (number_outcome_erase _ room vs h).2

end Expr

theorem Definition.Bound.of_given {fs : FunctionTable} {d : Definition}
    (hgiven : ∀ b, d.body = some b →
      ∃ d', fs.implementation? d.signature = some d' ∧ d'.body = some b)
    (hkeeps : ∀ b, d.body? fs = some b → b.KeepsFunctions) : d.Bound fs := by
  refine ⟨?_, hkeeps⟩
  cases hb : d.body with
  | none => simp only [body?, erase, hb]
  | some b =>
    obtain ⟨d', hd', hb'⟩ := hgiven b hb
    simp [body?, erase, hb, hd', hb']

/-- A tree whose calls find their own bodies in the table of functions is evaluated under that
table as before once it was stored and read again, if the bodies hand the table on: it has the same
value and the same truth, or the same error, whatever the variables are. -/
theorem late_binding_is_early_binding (e : Expr) (fs : FunctionTable)
    (he : e.Everywhere Expr.Accepted)
    (hgiven : ∀ d ∈ e.callees, ∀ b, d.body = some b →
      ∃ d', fs.implementation? d.signature = some d' ∧ d'.body = some b)
    (hkeeps : ∀ d ∈ e.callees, ∀ b, d.body? fs = some b → b.KeepsFunctions) :
    ∃ e', Expr.ofDatum? e.toDatum = .ok e' ∧ ∀ vs,
      e'.value vs fs = e.value vs fs ∧ e'.truth vs fs = e.truth vs fs ∧
        ∀ room, e'.outcome room vs fs = e.outcome room vs fs := by
  have hbound : ∀ d ∈ e.callees, d.Bound fs :=
    fun d hd => .of_given (hgiven d hd) (hkeeps d hd)
  refine ⟨e.erase, Expr.ofDatum?_eq_ok.mpr (e.standsFor_toDatum he), fun vs => ⟨?_, ?_, ?_⟩⟩
  · exact (e.number_outcome_erase Expr.levels vs hbound).2
  · exact e.truthWithin_erase Expr.levels vs hbound
  · exact fun room => (e.number_outcome_erase room vs hbound).2

/-- A sum of a call that sets `x` and of one that goes by a script, which binds `x` anew. -/
theorem late_binding_is_early_binding_nested :
    let f : Definition := ⟨.of "f" 1 1, some .atTen⟩
    let g : Definition := ⟨.of "g" 0 3, some .sum⟩
    let h : Definition := ⟨.of "h" 1 2,
      some (.script fun _ => .ask 0 { bound := [(.text "x", .whole 3)] } .answer)⟩
    let e : Expr := .compare .less (Expr.whole 4)
      (.call g [.call f [.named "x"], .call h [.binary .add (.named "x") (.named "y")]])
    let fs : FunctionTable := .ofList [f, g, h]
    let vs : Values := .insert (.x (.whole 1)) (.text "y") (.whole 2)
    (e.truth vs fs).isOk = true ∧
      ∃ e', Expr.ofDatum? e.toDatum = .ok e' ∧ e'.truth vs fs = e.truth vs fs := by
  intro f g h e fs vs
  have hcallees : e.callees = [g, f, h] := rfl
  have hg : g.signature.accepts (2 : Nat) = some true := by decide
  have hf : f.signature.accepts (1 : Nat) = some true := by decide
  have hh : h.signature.accepts (1 : Nat) = some true := by decide
  have he : e.Everywhere Expr.Accepted :=
    ⟨trivial, trivial, hg, ⟨hf, trivial, trivial⟩, ⟨hh, ⟨trivial, trivial, trivial⟩, trivial⟩,
      trivial⟩
  have hgiven : ∀ d ∈ e.callees, ∀ b, d.body = some b →
      ∃ d', fs.implementation? d.signature = some d' ∧ d'.body = some b := by
    intro d hd b hb
    refine ⟨d, ?_, hb⟩
    simp only [hcallees, List.mem_cons, List.not_mem_nil, or_false] at hd
    rcases hd with rfl | rfl | rfl <;> rfl
  have hkeeps : ∀ d ∈ e.callees, ∀ b, d.body? fs = some b → b.KeepsFunctions := by
    intro d hd b hb
    simp only [hcallees, List.mem_cons, List.not_mem_nil, or_false] at hd
    rcases hd with rfl | rfl | rfl <;> cases hb
    · trivial
    · trivial
    · exact fun _ => ⟨rfl, fun _ => trivial⟩
  obtain ⟨e', hread, hvalue⟩ := late_binding_is_early_binding e fs he hgiven hkeeps
  exact ⟨by decide +kernel, e', hread, (hvalue vs).2.1⟩

end Formula
