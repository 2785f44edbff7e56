import Formula.Proofs.Everywhere
import Formula.Proofs.ExactValues

/-!
# What the inventory of a tree stands for

The inventory keeps one name of those that are equal, and one definition of those with equal
signatures. Since values are looked up by equal names, and bodies by equal signatures, what holds
of the values and bodies in the inventory holds of all variables and calls of the tree.
-/

namespace Formula

-- ---------------------------------------------------------------------------
-- Values of equal names
-- ---------------------------------------------------------------------------

namespace Values

theorem get?_eq_of_same (hd : d.isAtom = true) (h : d.same e = true) (vs : Values) :
    vs.get? d = vs.get? e := by
  obtain ⟨entries⟩ := vs
  show find? entries d = find? entries e
  induction entries with
  | nil => rfl
  | cons entry rest ih => simp only [find?, Datum.same_eq_of_same hd h, ih]

theorem get?_insert (vs : Values) (name : Datum) (n : Number) (hd : d.isAtom = true) :
    (vs.insert name n).get? d = if name.same d then some n else vs.get? d := by
  obtain ⟨entries⟩ := vs
  show find? (put entries name n) d = if name.same d then some n else find? entries d
  induction entries with
  | nil => simp [put, find?]
  | cons entry rest ih =>
    obtain ⟨key, old⟩ := entry
    by_cases hkey : key.same name = true
    · have hsame : key.same d = name.same d := Datum.same_eq_of_same_left hd hkey
      by_cases hname : name.same d = true <;> simp_all [put, find?]
    · by_cases hname : name.same d = true
      · have hkd : key.same name = key.same d :=
          Datum.same_eq_of_same (Datum.isAtom_eq_of_same hname ▸ hd) hname key
        simp_all [put, find?]
      · simp_all [put, find?]

theorem lookup_insert_eq {vs vs' : Values} (h : vs.lookup d = vs'.lookup d) (name : Datum)
    (n : Number) : (vs.insert name n).lookup d = (vs'.insert name n).lookup d := by
  by_cases hd : d.isAtom = true
  · simp_all [lookup, get?_insert]
  · simp [lookup, hd]

end Values

theorem FunctionTable.implementation?_eq_of_same {s t : Signature} (hs : s.isAtomic = true)
    (h : s.same t = true) (fs : FunctionTable) : fs.implementation? s = fs.implementation? t := by
  simp only [implementation?, Signature.same_eq_of_same hs h]

-- ---------------------------------------------------------------------------
-- Sets of names
-- ---------------------------------------------------------------------------

namespace NameSet

def data (s : NameSet) : List Datum := s.texts.toList.map .text ++ s.strays.map .scalar

theorem mem_data_ofTexts {xs : List String} : d ∈ (ofTexts xs).data ↔ ∃ s ∈ xs, .text s = d := by
  simp [data, ofTexts, OrderedSet.mem_toList]

def keepNew (ns : List Number) (n : Number) : List Number :=
  if ns.any (·.same n) then ns else ns ++ [n]

variable {ns kept : List Number} {P : Number → Prop}

theorem forall_foldl_keepNew (hP : ∀ m n, m.same n = true → P m → P n) :
    (∀ n ∈ ns.foldl keepNew kept, P n) ↔ (∀ n ∈ kept, P n) ∧ ∀ n ∈ ns, P n := by
  induction ns generalizing kept with
  | nil => simp
  | cons n ns ih =>
    have hstep : (∀ m ∈ keepNew kept n, P m) ↔ (∀ m ∈ kept, P m) ∧ P n := by
      unfold keepNew
      split
      · rename_i hold
        obtain ⟨m, hm, hsame⟩ := List.any_eq_true.mp hold
        exact ⟨fun h => ⟨h, hP m n hsame (h m hm)⟩, And.left⟩
      · simp only [List.forall_mem_append, List.forall_mem_singleton]
    simp only [List.foldl_cons, ih, hstep, List.forall_mem_cons, and_assoc]

/-- What equal names share holds of the names of a set just when it holds of all the data that the
set was made of. -/
theorem forall_data {ds : List Datum} (h : ofData? ds = some names) {P : Datum → Prop}
    (hP : ∀ d e, d.isAtom = true → d.same e = true → P d → P e) :
    (∀ d ∈ names.data, P d) ↔ ∀ d ∈ ds, P d := by
  unfold ofData? at h
  split at h
  case isFalse => cases h
  rename_i hatoms
  cases h
  have hnumbers : (∀ n ∈ distinct (ds.filterMap number?), P (.scalar n)) ↔
      ∀ n ∈ ds.filterMap number?, P (.scalar n) := by
    refine (forall_foldl_keepNew fun m n hsame => hP _ _ rfl ?_).trans ?_
    · simpa using hsame
    · simp
  simp only [data, List.forall_mem_append, List.forall_mem_map, hnumbers, OrderedSet.mem_toList,
    OrderedSet.mem_ofList]
  constructor
  · rintro ⟨htexts, hscalars⟩ d hd
    cases d with
    | text s => exact htexts s (List.mem_filterMap.mpr ⟨_, hd, rfl⟩)
    | scalar n => exact hscalars n (List.mem_filterMap.mpr ⟨_, hd, rfl⟩)
    | list | mapping => cases List.all_eq_true.mp hatoms _ hd
  · intro hall
    constructor
    · intro s hs
      obtain ⟨d, hd, hs⟩ := List.mem_filterMap.mp hs
      cases d <;> cases hs
      exact hall _ hd
    · intro n hn
      obtain ⟨d, hd, hn⟩ := List.mem_filterMap.mp hn
      cases d <;> cases hn
      exact hall _ hd

end NameSet

-- ---------------------------------------------------------------------------
-- Sets of definitions
-- ---------------------------------------------------------------------------

theorem forall_keepFirst {ds : List Definition} {P : Definition → Prop}
    (hP : ∀ d ∈ ds, ∀ e, d.signature.same e.signature = true → P d → P e) :
    (∀ d ∈ keepFirst ds, P d) ↔ ∀ d ∈ ds, P d := by
  induction ds with
  | nil => simp [keepFirst]
  | cons d ds ih =>
    have ih := ih fun d hd => hP d (List.mem_cons_of_mem _ hd)
    simp only [keepFirst, List.forall_mem_cons, List.mem_filter, ← ih]
    refine and_congr_right fun hd => ⟨fun h e he => ?_, fun h e he => h e he.1⟩
    by_cases hsame : d.signature.same e.signature = true
    · exact hP d List.mem_cons_self e hsame hd
    · exact h e ⟨he, by simpa using hsame⟩

namespace Expr

variable {P : Expr → Prop} {Q : Definition → Prop} {R : Datum → Prop} {e : Expr}

mutual
theorem forall_variableNames (hP : ∀ name, P (.var name) → R name) :
    (e : Expr) → e.Everywhere P → ∀ name ∈ e.variableNames, R name
  | .missing, _ | .const _, _ => nofun
  | .var name, h => List.forall_mem_singleton.mpr (hP name h)
  | .unary _ e, h => forall_variableNames hP e h.2
  | .binary _ l r, h | .compare _ l r, h => List.forall_mem_append.mpr
    ⟨forall_variableNames hP l h.2.1, forall_variableNames hP r h.2.2⟩
  | .call _ es, h => forall_variableNamesAll hP es h.2
theorem forall_variableNamesAll (hP : ∀ name, P (.var name) → R name) :
    (es : List Expr) → EverywhereAll P es → ∀ name ∈ variableNamesAll es, R name
  | [], _ => nofun
  | e :: es, h => List.forall_mem_append.mpr
    ⟨forall_variableNames hP e h.1, forall_variableNamesAll hP es h.2⟩
end

mutual
theorem forall_callees (hP : ∀ d es, P (.call d es) → Q d) :
    (e : Expr) → e.Everywhere P → ∀ d ∈ e.callees, Q d
  | .missing, _ | .const _, _ | .var _, _ => nofun
  | .unary _ e, h => forall_callees hP e h.2
  | .binary _ l r, h | .compare _ l r, h => List.forall_mem_append.mpr
    ⟨forall_callees hP l h.2.1, forall_callees hP r h.2.2⟩
  | .call d es, h => List.forall_mem_cons.mpr ⟨hP d es h.1, forall_calleesAll hP es h.2⟩
theorem forall_calleesAll (hP : ∀ d es, P (.call d es) → Q d) :
    (es : List Expr) → EverywhereAll P es → ∀ d ∈ calleesAll es, Q d
  | [], _ => nofun
  | e :: es, h => List.forall_mem_append.mpr
    ⟨forall_callees hP e h.1, forall_calleesAll hP es h.2⟩
end

/-- What equal names share holds of the used variables just when it holds of all variables. -/
theorem forall_usedVariables (h : e.usedVariablesWithin room = .ok names) {P : Datum → Prop}
    (hP : ∀ d e, d.isAtom = true → d.same e = true → P d → P e) :
    (∀ name ∈ names.data, P name) ↔ ∀ name ∈ e.variableNames, P name :=
  NameSet.forall_data (usedVariablesWithin_eq_ok.mp h).2 hP

theorem forall_usedFunctions (h : e.usedFunctionsWithin room = .ok table) {P : Signature → Prop}
    (hP : ∀ s t, s.isAtomic = true → s.same t = true → P s → P t) :
    (∀ d ∈ table.definitions, P d.signature) ↔ ∀ d ∈ e.callees, P d.signature := by
  obtain ⟨hwalk, rfl⟩ := usedFunctionsWithin_eq_ok.mp h
  have hatomic : ∀ d ∈ e.callees, d.signature.isAtomic = true :=
    forall_callees (fun d es h => h.1) e (everywhere_of_walk hwalk)
  refine (forall_keepFirst (P := fun d => P d.signature) ?_).trans List.forall_mem_map
  intro d hd d' hsame
  obtain ⟨c, hc, rfl⟩ := List.mem_map.mp hd
  exact hP _ _ (hatomic c hc) hsame

end Expr

end Formula
