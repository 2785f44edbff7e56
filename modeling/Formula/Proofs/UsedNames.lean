import Formula.Proofs.Inventory
import Formula.Proofs.Levels
import Formula.Proofs.Scripts

/-!
# The names that a tree uses are all that it sees

Two surroundings, each a map of values and a table of functions, give a tree the same value and
the same truth, or the same error, as soon as they agree on the variables and functions in its
inventory. A body may change the surroundings of an argument before it asks for its value: both
change alike, so they still agree on what the argument uses.
-/

namespace Formula

/-- The surroundings agree on what the tree uses: they have the same values, or none, for its
variables, and the same bodies, or none, for its calls. -/
structure Expr.SeesSame (vs vs' : Values) (fs fs' : FunctionTable) (e : Expr) : Prop where
  lookup_eq : ∀ name ∈ e.variableNames, vs.lookup name = vs'.lookup name
  body?_eq : ∀ d ∈ e.callees, d.body? fs = d.body? fs'

variable {vs vs' : Values} {fs fs' : FunctionTable} {e : Expr} {es : List Expr}

namespace Expr.SeesSame

theorem values (h : SeesSame vs vs' fs fs' e) (fs : FunctionTable) : SeesSame vs vs' fs fs e :=
  ⟨h.lookup_eq, fun _ _ => rfl⟩

theorem functions (h : SeesSame vs vs' fs fs' e) (vs : Values) : SeesSame vs vs fs fs' e :=
  ⟨fun _ _ => rfl, h.body?_eq⟩

theorem insert (h : SeesSame vs vs' fs fs' e) (name : Datum) (n : Number) :
    SeesSame (vs.insert name n) (vs'.insert name n) fs fs' e :=
  ⟨fun other hother => Values.lookup_insert_eq (h.lookup_eq other hother) name n, h.body?_eq⟩

theorem scope (h : SeesSame vs vs' fs fs' e) (s : Scope) :
    SeesSame (s.values vs) (s.values vs') (s.functions fs) (s.functions fs') e := by
  have hfunctions : SeesSame vs vs' (s.functions fs) (s.functions fs') e := by
    unfold Scope.functions
    split
    · exact h
    · exact h.values ∅
  have hstart : SeesSame (if s.keepsValues then vs else ∅) (if s.keepsValues then vs' else ∅)
      (s.functions fs) (s.functions fs') e := by
    split
    · exact hfunctions
    · exact hfunctions.functions ∅
  unfold Scope.values
  revert hstart
  generalize (if s.keepsValues then vs else ∅) = start
  generalize (if s.keepsValues then vs' else ∅) = start'
  intro hstart
  induction s.bound generalizing start start' with
  | nil => exact hstart
  | cons entry rest ih => exact ih _ _ (hstart.insert entry.1 entry.2)

theorem both (h : SeesSame vs vs' fs fs' e)
    (hnames : e.variableNames = l.variableNames ++ r.variableNames)
    (hcallees : e.callees = l.callees ++ r.callees) :
    SeesSame vs vs' fs fs' l ∧ SeesSame vs vs' fs fs' r := by
  obtain ⟨hvalues, hbodies⟩ := h
  rw [hnames, List.forall_mem_append] at hvalues
  rw [hcallees, List.forall_mem_append] at hbodies
  exact ⟨⟨hvalues.1, hbodies.1⟩, hvalues.2, hbodies.2⟩

theorem argument (h : SeesSame vs vs' fs fs' (.call d es)) (he : e ∈ es) :
    SeesSame vs vs' fs fs' e :=
  ⟨fun name hname => h.lookup_eq name (mem_variableNamesAll he hname),
    fun d hd => h.body?_eq d (List.mem_cons_of_mem _ (mem_calleesAll he hd))⟩

end Expr.SeesSame

/-- The evaluator sees no more of its surroundings than the tree uses. -/
def Evaluator.Blind (eval : Evaluator) (e : Expr) : Prop :=
  ∀ vs vs' fs fs', e.SeesSame vs vs' fs fs' → eval vs fs e = eval vs' fs' e

namespace Body

variable {eval : Evaluator}

theorem runScript_congr (hblind : ∀ e ∈ es, eval.Blind e)
    (hsees : ∀ e ∈ es, e.SeesSame vs vs' fs fs') (s : Script) :
    runScript eval vs fs es s = runScript eval vs' fs' es s := by
  induction s with
  | answer => rfl
  | ask position scope next ih =>
    have hvalue : ∀ e ∈ es[position]?, eval (scope.values vs) (scope.functions fs) e =
        eval (scope.values vs') (scope.functions fs') e := by
      intro e he
      have hmem := List.mem_of_getElem? he
      exact hblind e hmem _ _ _ _ ((hsees e hmem).scope scope)
    have hpick := pick_congr (f := id) (fun _ => Iff.rfl) hvalue
    rw [Option.map_id_apply] at hpick
    rw [runScript, runScript, hpick]
    exact ih _

end Body

namespace Expr

theorem number_outcome_congr (e : Expr) (room : Nat) (h : e.SeesSame vs vs' fs fs') :
    number room vs fs e = number room vs' fs' e ∧
      outcome room vs fs e = outcome room vs' fs' e := by
  -- A body may evaluate its arguments in other surroundings, so these vary in the induction. It is
  -- on all smaller numbers of levels, since a comparison takes several.
  induction room using Nat.strongRecOn generalizing e vs vs' fs fs' with
  | ind room ih =>
    cases room with
    | zero => exact ⟨rfl, rfl⟩
    | succ room =>
      have hlt : room < room + 1 := Nat.lt_succ_self room
      have hbelow := congrArg (some <$> ·) (ih room hlt e h).1
      cases e with
      | missing => exact ⟨rfl, rfl⟩
      | const => exact ⟨rfl, hbelow⟩
      | var name =>
        have hname := h.lookup_eq name (List.mem_singleton_self name)
        exact ⟨by simp only [number, Values.value, hname], hbelow⟩
      | unary op e =>
        have he := (ih room hlt e ⟨h.lookup_eq, h.body?_eq⟩).1
        exact ⟨by simp only [number, he], hbelow⟩
      | binary op l r =>
        obtain ⟨hl, hr⟩ := h.both rfl rfl
        exact ⟨by simp only [number, (ih room hlt l hl).1, (ih room hlt r hr).1], hbelow⟩
      | compare rel a b =>
        obtain ⟨ha, hb⟩ := h.both rfl rfl
        refine ⟨rfl, ?_⟩
        rcases room with _ | _ | room
        · rfl
        · rfl
        · have hlt : room < room + 3 := Nat.lt_add_of_pos_right (by decide)
          simp only [outcome, (ih room hlt a ha).2, (ih room hlt b hb).2]
      | call d es =>
        have hbody := h.body?_eq d List.mem_cons_self
        refine ⟨?_, hbelow⟩
        have hblind : ∀ e ∈ es, Evaluator.Blind (outcome room) e :=
          fun e _ vs vs' fs fs' h => (ih room hlt e h).2
        simp only [number, hbody]
        cases d.body? fs' with
        | none => rfl
        | some b =>
          simp only [Body.run_eq_runScript, Body.runScript_congr hblind fun e he => h.argument he]

theorem truthWithin_congr (e : Expr) (room : Nat) (h : e.SeesSame vs vs' fs fs') :
    truthWithin room vs fs e = truthWithin room vs' fs' e := by
  cases e with
  | compare rel a b =>
    obtain ⟨ha, hb⟩ := h.both rfl rfl
    match room with
    | 0 | 1 => rfl
    | room + 2 =>
      simp only [truthWithin, (number_outcome_congr a room ha).2,
        (number_outcome_congr b room hb).2]
  | _ => exact (number_outcome_congr _ room h).2

theorem seesSame_of_used (hnames : e.usedVariablesWithin n = .ok names)
    (htable : e.usedFunctionsWithin n = .ok table)
    (hvalues : ∀ name ∈ names.data, vs.get? name = vs'.get? name)
    (hbodies : ∀ d ∈ table.definitions, (fs.implementation? d.signature).bind (·.body) =
      (fs'.implementation? d.signature).bind (·.body)) : e.SeesSame vs vs' fs fs' := by
  rw [forall_usedVariables hnames fun d d' hd hsame heq => by
    simpa only [Values.get?_eq_of_same hd hsame] using heq] at hvalues
  rw [forall_usedFunctions htable (P := fun s => (fs.implementation? s).bind (·.body) =
    (fs'.implementation? s).bind (·.body)) fun s t hs hsame heq => by
      simpa only [FunctionTable.implementation?_eq_of_same hs hsame] using heq] at hbodies
  constructor
  · intro name hname
    simp only [Values.lookup, hvalues name hname]
  · intro d hd
    simp only [Definition.body?, hbodies d hd]

end Expr

/-- Two maps of values that agree on the used variables of a tree, and two tables that give its
used functions the same bodies or none, are the same for its evaluation: it has the same value and
the same truth, or the same error, whatever the numbers of levels that are walked. The inventory of
the program is that with `Expr.levels` levels. -/
theorem inventory_is_all_that_counts {n : Nat} {names : NameSet} {table : FunctionTable}
    (hnames : e.usedVariablesWithin n = .ok names) (htable : e.usedFunctionsWithin n = .ok table)
    (hvalues : ∀ name ∈ names.data, vs.get? name = vs'.get? name)
    (hbodies : ∀ d ∈ table.definitions, (fs.implementation? d.signature).bind (·.body) =
      (fs'.implementation? d.signature).bind (·.body)) :
    (e.usedVariables = e.usedVariablesWithin Expr.levels ∧
      e.usedFunctions = e.usedFunctionsWithin Expr.levels ∧
      e.value vs fs = e.outcome Expr.levels vs fs ∧
      e.truth vs fs = e.truthWithin Expr.levels vs fs) ∧
    (e.value vs fs = e.value vs' fs' ∧ e.truth vs fs = e.truth vs' fs') ∧
      ∀ room, e.outcome room vs fs = e.outcome room vs' fs' ∧
        e.truthWithin room vs fs = e.truthWithin room vs' fs' := by
  have hsees : e.SeesSame vs vs' fs fs' := Expr.seesSame_of_used hnames htable hvalues hbodies
  have hvalue (room : Nat) := (e.number_outcome_congr room hsees).2
  have htruth (room : Nat) := e.truthWithin_congr room hsees
  exact ⟨⟨rfl, rfl, rfl, rfl⟩, ⟨hvalue Expr.levels, htruth Expr.levels⟩,
    fun room => ⟨hvalue room, htruth room⟩⟩

/-- One body sets `x`, one binds it anew by a script, and one has no table. Only one of the maps has
`z`, and only one of the tables has `m`. -/
theorem inventory_is_all_that_counts_nested :
    let f : Definition := ⟨.of "f" 1 1, some .atTen⟩
    let g : Definition := ⟨.of "g" 0 3, some .sum⟩
    let h : Definition := ⟨.of "h" 1 2, some .isolated⟩
    let k : Definition := ⟨.of "k" 1 2,
      some (.script fun _ => .ask 0 { bound := [(.text "x", .whole 3)] } .answer)⟩
    let m : Definition := ⟨.of "m" 0 0, some .nothing⟩
    let e : Expr := .compare .less (Expr.whole 4)
      (.call g.erase [.call f.erase [.named "x"], .call h [.named "y"],
        .call k.erase [.binary .add (.named "x") (.named "y")]])
    let vs : Values := .ofList [(.text "x", .whole 1), (.text "y", .whole 2), (.text "z", .whole 3)]
    let vs' : Values := .ofList [(.text "y", .whole 2), (.text "x", .whole 1)]
    let fs : FunctionTable := .ofList [f, g, k, m]
    let fs' : FunctionTable := .ofList [k, g, f]
    (e.truth vs fs).isOk = true ∧ e.truth vs fs = e.truth vs' fs' := by
  intro f g h k m e vs vs' fs fs'
  have hnames : e.usedVariables = .ok (.ofTexts ["x", "y", "x", "y"]) := rfl
  have htable : e.usedFunctions = .ok (.ofList [g.erase, f.erase, h.erase, k.erase]) := rfl
  have hvalues : ∀ name ∈ (NameSet.ofTexts ["x", "y", "x", "y"]).data,
      vs.get? name = vs'.get? name := by
    intro name hname
    obtain ⟨s, hs, rfl⟩ := NameSet.mem_data_ofTexts.mp hname
    simp only [List.mem_cons, List.not_mem_nil, or_false] at hs
    rcases hs with rfl | rfl | rfl | rfl <;> rfl
  have hbodies : ∀ d ∈ (FunctionTable.ofList [g.erase, f.erase, h.erase, k.erase]).definitions,
      (fs.implementation? d.signature).bind (·.body) =
        (fs'.implementation? d.signature).bind (·.body) := by
    intro d hd
    have hd := mem_keepFirst hd
    simp only [List.mem_cons, List.not_mem_nil, or_false] at hd
    rcases hd with rfl | rfl | rfl | rfl <;> rfl
  exact ⟨by decide +kernel, (inventory_is_all_that_counts hnames htable hvalues hbodies).2.1.2⟩

end Formula
