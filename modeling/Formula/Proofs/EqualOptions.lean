import Formula.Proofs.Alike
import Formula.Proofs.Callable

/-!
# Reading under equal options

Equal options declare the same names, so they cut a text into the same tokens, in whatever order
the names were declared. Only the functions that share a name are told apart by their order: the
first one declared is called. Where equal options agree on it they read alike, and where they do
not there is a text that they read differently.
-/

namespace Formula

variable {o o' : Options}

-- ---------------------------------------------------------------------------
-- Sets
-- ---------------------------------------------------------------------------

namespace OrderedSet

variable {α : Type} [Ord α] [Std.TransOrd α] [Std.LawfulEqOrd α] {s t : OrderedSet α}

omit [Std.TransOrd α] in
theorem nodup_toList (s : OrderedSet α) : s.toList.Nodup := by
  refine s.ascending.imp fun h hab => ?_
  subst hab
  simp at h

theorem eq_of_mem_iff (h : ∀ a, a ∈ s ↔ a ∈ t) : s = t := by
  have hperm : s.toList.Perm t.toList :=
    (List.perm_ext_iff_of_nodup s.nodup_toList t.nodup_toList).mpr h
  have hanti : ∀ a b : α, a ∈ s.toList → b ∈ t.toList → compare a b = .lt →
      compare b a = .lt → a = b :=
    fun _ _ _ _ hab hba => absurd hba (Std.OrientedCmp.not_lt_of_lt hab)
  have hlist := hperm.eq_of_pairwise hanti s.ascending t.ascending
  cases s
  cases t
  cases hlist
  rfl

end OrderedSet

-- ---------------------------------------------------------------------------
-- Trees and errors
-- ---------------------------------------------------------------------------

theorem Expr.sameAll_iff :
    sameAll es es' = true ↔ List.Forall₂ (fun e e' => e.same e' = true) es es' := by
  induction es generalizing es' with
  | nil => cases es' <;> simp [sameAll]
  | cons e es ih => cases es' <;> simp [sameAll, ih]

mutual
theorem Expr.height_eq_of_same :
    (e e' : Expr) → e.same e' = true → e.height = e'.height
  | .unary _ a, .unary _ b, h => by
    simp only [same, Bool.and_eq_true] at h
    rw [height, height, height_eq_of_same a b h.2]
  | .binary _ a b, .binary _ c d, h | .compare _ a b, .compare _ c d, h => by
    simp only [same, Bool.and_eq_true] at h
    rw [height, height, height_eq_of_same a c h.1.2, height_eq_of_same b d h.2]
  | .call _ es, .call _ es', h => by
    simp only [same, Bool.and_eq_true] at h
    rw [height, height, heightAll_eq_of_same es es' h.2]
  | .missing, .missing, _ | .const _, .const _, _ | .var _, .var _, _ => rfl
theorem Expr.heightAll_eq_of_same :
    (es es' : List Expr) → sameAll es es' = true → heightAll es = heightAll es'
  | [], [], _ => rfl
  | e :: es, e' :: es', h => by
    simp only [sameAll, Bool.and_eq_true] at h
    rw [heightAll, heightAll, height_eq_of_same e e' h.1, heightAll_eq_of_same es es' h.2]
end

theorem Expr.all_height_eq_of_same {es es' : List Expr}
    (h : List.Forall₂ (fun e e' => e.same e' = true) es es') (levels : Nat) :
    es.all (·.height ≤ levels) = es'.all (·.height ≤ levels) := by
  induction h with
  | nil => rfl
  | cons he _ ih => rw [List.all_cons, List.all_cons, ih, height_eq_of_same _ _ he]

/-- Errors of one kind, about data that are equal. -/
inductive ParseError.Alike : ParseError → ParseError → Prop
  | bracket (fault : Bracket.Fault) : Alike (.bracket fault) (.bracket fault)
  | tooDeep (depth : Nat) : m.same n = true → Alike (.tooDeep depth m) (.tooDeep depth n)
  | exhausted : Alike .exhausted .exhausted
  | missingOperand (op : String) : Alike (.missingOperand op) (.missingOperand op)
  | argumentCount (f g : String) : Alike (.argumentCount f) (.argumentCount g)
  | unfitRange : s.same t = true → Alike (.unfitRange s) (.unfitRange t)
  | notOperand : Part.Alike (fun e e' => e.same e' = true) p p' →
      Alike (.notOperand p) (.notOperand p')
  | leftover : List.Forall₂ (Part.Alike fun e e' => e.same e' = true) ps ps' →
      Alike (.leftover ps) (.leftover ps')

theorem Part.Alike.trees (h : Part.Alike R p p') : List.Forall₂ R p.trees p'.trees := by
  cases h with
  | pending => exact .nil
  | arguments hes => exact hes
  | tree he => exact .cons he .nil

theorem ParseError.Alike.shownWithin (h : Alike err err') (levels : Nat) :
    Alike (err.shownWithin levels) (err'.shownWithin levels) := by
  have htrees : List.Forall₂ (fun e e' => e.same e' = true) err.trees err'.trees := by
    cases h with
    | notOperand hp => exact hp.trees
    | leftover hps => exact List.rel_flatMap hps fun _ _ hp => hp.trees
    | _ => exact .nil
  unfold ParseError.shownWithin
  rw [Expr.all_height_eq_of_same htrees]
  split
  · exact h
  · exact .exhausted

-- ---------------------------------------------------------------------------
-- Tables
-- ---------------------------------------------------------------------------

namespace FunctionTable

variable {t u : FunctionTable}

theorem exists_mem_of_all {ds es : List Definition}
    (h : (ds.map (·.signature)).all ((es.map (·.signature)).any ·.same) = true) (hd : d ∈ ds) :
    ∃ e ∈ es, d.signature.same e.signature = true := by
  have hany := List.all_eq_true.mp h _ (List.mem_map_of_mem hd)
  obtain ⟨s, hs, hsame⟩ := List.any_eq_true.mp hany
  obtain ⟨e, he, rfl⟩ := List.mem_map.mp hs
  exact ⟨e, he, hsame⟩

theorem exists_of_same (h : t.same u = true) :
    (∀ d ∈ t.definitions, ∃ e ∈ u.definitions, d.signature.same e.signature = true) ∧
      ∀ e ∈ u.definitions, ∃ d ∈ t.definitions, e.signature.same d.signature = true := by
  obtain ⟨htu, hut⟩ := Bool.and_eq_true_iff.mp h
  exact ⟨fun _ hd => exists_mem_of_all htu hd, fun _ he => exists_mem_of_all hut he⟩

theorem mem_textNames_of_same (h : t.same u = true) (name : String) :
    name ∈ t.textNames ↔ name ∈ u.textNames := by
  obtain ⟨htu, hut⟩ := exists_of_same h
  rw [Options.mem_textNames, Options.mem_textNames]
  constructor
  · rintro ⟨d, hd, hname⟩
    obtain ⟨e, he, hsame⟩ := htu d hd
    exact ⟨e, he, (Signature.name_eq_text_iff_of_same hsame).mp hname⟩
  · rintro ⟨e, he, hname⟩
    obtain ⟨d, hd, hsame⟩ := hut e he
    exact ⟨d, hd, (Signature.name_eq_text_iff_of_same hsame).mp hname⟩

theorem isSome_byName? (name : String) :
    (t.byName? (.text name)).isSome = true ↔ name ∈ t.textNames := by
  rw [Options.mem_textNames, byName?, List.find?_isSome]
  refine exists_congr fun d => and_congr_right fun _ => ?_
  cases d.signature.name <;> simp [Datum.same]

/-- Under the names that no constant has, the tables have equal first definitions. -/
def FirstsAgree (t u : FunctionTable) : Prop :=
  ∀ name ∉ Builtin.constantNames, ∀ d e, t.byName? (.text name) = some d →
    u.byName? (.text name) = some e → d.signature.same e.signature = true

theorem firstsAgree_of_nodup (h : t.same u = true) (hdistinct : u.textNames.Nodup) :
    FirstsAgree t u := by
  intro name _ d e hd he
  obtain ⟨hmem, hname⟩ := Options.byName?_eq_some hd
  obtain ⟨e', hmem', hsame⟩ := (exists_of_same h).1 d hmem
  obtain ⟨hmem, hname'⟩ := Options.byName?_eq_some he
  have hname := (Signature.name_eq_text_iff_of_same hsame).mp hname
  rwa [Part.eq_of_name (o := { functions := u }) hdistinct hmem hmem' hname' hname]

theorem rel_byName? (h : t.same u = true) (hfirst : FirstsAgree t u)
    (hconstant : name ∉ Builtin.constantNames) :
    Option.Rel (fun d e => d.signature.same e.signature = true) (t.byName? (.text name))
      (u.byName? (.text name)) := by
  have hagree := hfirst name hconstant
  have hsome := mem_textNames_of_same h name
  rw [← isSome_byName?, ← isSome_byName?] at hsome
  generalize t.byName? (.text name) = x, u.byName? (.text name) = y at *
  cases x with
  | none =>
    cases y with
    | none => exact .none
    | some e => simp at hsome
  | some d =>
    cases y with
    | none => simp at hsome
    | some e => exact .some (hagree d e rfl rfl)

end FunctionTable

-- ---------------------------------------------------------------------------
-- Reading
-- ---------------------------------------------------------------------------

namespace Options

theorem same_iff : o.same o' = true ↔
    o.minusIsNegative.same o'.minusIsNegative = true ∧
    o.implicitProduct.same o'.implicitProduct = true ∧
    o.variableNames.same o'.variableNames = true ∧ o.functions.same o'.functions = true ∧
    o.maxDepth.same o'.maxDepth = true := by
  simp [same, and_assoc]

section Same

variable (h : o.same o' = true)

include h

theorem texts_eq_of_same : o.variableNames.texts = o'.variableNames.texts := by
  have hnames := (same_iff.mp h).2.2.1
  simp only [NameSet.same, Bool.and_eq_true, beq_iff_eq] at hnames
  exact hnames.1.1

theorem functions_same_of_same : o.functions.same o'.functions = true :=
  (same_iff.mp h).2.2.2.1

theorem maxDepth_same_of_same : o.maxDepth.same o'.maxDepth = true :=
  (same_iff.mp h).2.2.2.2

theorem vocabulary_eq_of_same : o.vocabulary = o'.vocabulary := by
  have hwords : o.vocabulary.words = o'.vocabulary.words := by
    refine OrderedSet.eq_of_mem_iff fun word => ?_
    obtain ⟨name, rfl⟩ : ∃ name, word = Word.ofString name :=
      ⟨.ofList word.letters, by rw [Word.ofString, String.toList_ofList]⟩
    have hfunctions := FunctionTable.mem_textNames_of_same (functions_same_of_same h) name
    rw [mem_textNames, mem_textNames] at hfunctions
    rw [mem_vocabulary, mem_vocabulary, texts_eq_of_same h, hfunctions]
  exact congrArg Vocabulary.mk hwords

theorem isTooDeep_eq_of_same : o.isTooDeep = o'.isTooDeep := by
  funext depth
  rw [isTooDeep, isTooDeep, (Number.less?_whole_eq_of_same (maxDepth_same_of_same h) depth).1]

end Same

end Options

theorem Expr.isEuler_eq_of_same {e e' : Expr} (h : e.same e' = true) : e.isEuler = e'.isEuler := by
  unfold same at h
  split at h
  case h_4 op x op' y =>
    simp only [Bool.and_eq_true, beq_iff_eq] at h
    obtain ⟨rfl, h⟩ := h
    unfold same at h
    split at h
    case h_2 => cases op <;> simp [isEuler, Datum.same_whole_eq_of_same h]
    case h_8 => cases h
    all_goals cases op <;> rfl
  case h_8 => cases h
  all_goals rfl

theorem alike_of_same (hminus : o.minusIsNegative.holds = o'.minusIsNegative.holds)
    (hproduct : o.implicitProduct.holds = o'.implicitProduct.holds)
    (hnamed : o.variableNames.texts = o'.variableNames.texts)
    (hcalled : ∀ name ∉ Builtin.constantNames,
      Option.Rel (fun d d' => d.signature.same d'.signature = true)
        (o.functions.byName? (.text name)) (o'.functions.byName? (.text name))) :
    Alike (fun e e' => e.same e' = true) ParseError.Alike o o' where
  isNumeric he := by
    unfold Expr.same at he
    split at he <;> first | rfl | cases he
  isEuler := Expr.isEuler_eq_of_same
  const d hd := by rwa [Expr.same]
  var name := by simp [Expr.named, Expr.same]
  unary op he := by simp [Expr.same, he]
  binary _ hl hr := by simp [Expr.same, hl, hr]
  difference hl hr := by
    rw [Part.difference, Part.difference, hminus]
    split <;> simp [Expr.same, hl, hr]
  named name := by rw [hnamed]
  called name hname := by
    have hrel := hcalled name hname
    generalize o.functions.byName? (.text name) = x, o'.functions.byName? (.text name) = y at hrel
    cases hrel with
    | none => exact .none
    | @some d d' hd =>
      refine .some fun es es' hes => ?_
      simp only [Part.Callee.call, Option.getD_some, hes.length_eq, Signature.accepts_eq_of_same hd]
      split
      · exact .ok (by simp [Expr.same, hd, Expr.sameAll_iff.mpr hes])
      · exact .error (.argumentCount _ _)
      · exact .error (.unfitRange hd)
  product := hproduct
  argumentCount name := .argumentCount name name
  missingOperand := .missingOperand
  notOperand := .notOperand
  leftover := .leftover

theorem alike_same_self (h : ∀ d ∈ o.functions.definitions, d.signature.same d.signature = true) :
    Alike (fun e e' => e.same e' = true) ParseError.Alike o o := by
  refine alike_of_same rfl rfl rfl fun name _ => ?_
  cases hd : o.functions.byName? (.text name) with
  | none => exact .none
  | some d => exact .some (h d (Options.byName?_eq_some hd).1)

theorem readAlike_of_same (h : o.same o' = true)
    (hfirst : o.functions.FirstsAgree o'.functions) :
    ReadAlike (fun e e' => e.same e' = true) ParseError.Alike o o' where
  toAlike := alike_of_same (Datum.holds_eq_of_same (Options.same_iff.mp h).1)
    (Datum.holds_eq_of_same (Options.same_iff.mp h).2.1) (Options.texts_eq_of_same h)
    fun _ => FunctionTable.rel_byName? (Options.functions_same_of_same h) hfirst
  vocabulary := Options.vocabulary_eq_of_same h
  isTooDeep := Options.isTooDeep_eq_of_same h
  tooDeep depth := .tooDeep depth (Options.maxDepth_same_of_same h)
  exhausted := .exhausted
  bracket := .bracket

-- ---------------------------------------------------------------------------
-- Overloads
-- ---------------------------------------------------------------------------

theorem parseWithin_calledWithOnes {o : Options} {d : Definition} {l : Parser.Limits}
    (hl : 1 < l.brackets)
    (hcheck : checkDeclarations o.variableNames o.functions.signatures = .ok ())
    (hfirst : o.functions.byName? (.text name) = some d) (hconstant : name ∉ Builtin.constantNames)
    {count : Nat} (haccepts : d.signature.accepts count = some true) :
    ∃ text, parseWithin l o text = .ok (.call d (List.replicate count (.real 1.0))) := by
  obtain ⟨room, hroom⟩ := Nat.exists_eq_add_of_le' hl
  obtain ⟨hd, hname⟩ := Options.byName?_eq_some hfirst
  have declared := checkDeclarations_eq_ok.mp hcheck
  have hread : (Parser.mk o o.vocabulary).readAt l.shown (room + 2) 0
      (Source.calledWithOnes d count).text = .ok ((Source.calledWithOnes d count).tree o) := by
    refine Source.readAt_first declared hname hfirst hconstant
      (Source.calledWithOnes_valid hd haccepts) o.isTooDeep_zero fun t ht => ?_
    obtain rfl := List.eq_of_mem_replicate ht
    exact Source.readAt_literal declared Source.one_valid o.isTooDeep_one
  refine ⟨(Source.calledWithOnes d count).text, parseWithin_eq_ok.mpr ⟨hcheck, ?_⟩⟩
  rwa [hroom, ← Source.tree_calledWithOnes d count (o := o)]

/-- Equal options read every text alike, or refuse it for errors of one kind, if they agree on the
first definition of every name that no constant has; they do if no two functions share a name.
If they disagree on a definition that accepts any number of arguments, some text tells them
apart, unless there is no level for its arguments. -/
theorem equal_options_read_alike (o o' : Options) (hsame : o.same o' = true)
    (hcheck : checkDeclarations o.variableNames o.functions.signatures = .ok ())
    (hcheck' : checkDeclarations o'.variableNames o'.functions.signatures = .ok ()) :
    (∃ l : Parser.Limits, l.Govern) ∧
    (o.functions.FirstsAgree o'.functions →
      ∀ l text, Parallel ParseError.Alike (fun t t' => t.same t' = true) (parseWithin l o text)
        (parseWithin l o' text)) ∧
    (o'.functions.textNames.Nodup → o.functions.FirstsAgree o'.functions) ∧
    ∀ l : Parser.Limits, 1 < l.brackets →
      (∀ text, Parallel (fun _ _ => True) (fun t t' => t.same t' = true) (parseWithin l o text)
        (parseWithin l o' text)) →
      ∀ name ∉ Builtin.constantNames, ∀ d d', o.functions.byName? (.text name) = some d →
        o'.functions.byName? (.text name) = some d' →
        ∀ count : Nat, d.signature.accepts count = some true →
          d.signature.same d'.signature = true := by
  refine ⟨Parser.exists_govern, fun hfirst l text => ?_,
    FunctionTable.firstsAgree_of_nodup (Options.functions_same_of_same hsame),
    fun l hl hparse name hconstant d d' hd hd' count haccepts => ?_⟩
  · refine (readAlike_of_same hsame hfirst).parseWithin
      (fun depth _ _ _ h => h.shownWithin (l.shown depth)) ?_ text
    rw [hcheck, hcheck']
    exact .ok rfl
  · obtain ⟨text, hread⟩ := parseWithin_calledWithOnes hl hcheck hd hconstant haccepts
    obtain ⟨t', ht', hsame'⟩ := (hread ▸ hparse text).exists_of_ok
    cases t' with
    | call g es =>
      simp only [Expr.same, Bool.and_eq_true] at hsame'
      obtain ⟨hg, -⟩ := hsame'
      obtain ⟨word, -, -, hword⟩ := exists_word_of_mem_callees ht' List.mem_cons_self
      obtain ⟨-, hname⟩ := Options.byName?_eq_some hd
      obtain ⟨-, hname'⟩ := Options.byName?_eq_some hword
      rw [Signature.name_eq_text_iff_of_same hg, hname'] at hname
      obtain rfl := Datum.text.inj hname
      obtain rfl := Option.some.inj (hd'.symm.trans hword)
      exact hg
    | _ => simp [Expr.same] at hsame'

/-- A switch that is one instead of true and another order of declaration make no difference. -/
theorem equal_options_read_alike_reordered :
    let f : Definition := ⟨.of "f" 1 1, none⟩
    let g : Definition := ⟨.of "g" 0 2, none⟩
    let o : Options := { functions := .ofList [f, g] }
    let o' : Options := { implicitProduct := .scalar (.whole 1), functions := .ofList [g, f] }
    ∃ t t', parse o "f (g [x, e]) x" = .ok t ∧ parse o' "f (g [x, e]) x" = .ok t' ∧
      t.same t' = true := by
  intro f g o o'
  obtain ⟨t, ht⟩ := exists_of_isOk (show (parse o "f (g [x, e]) x").isOk = true by decide +kernel)
  obtain ⟨-, halike, hagree, -⟩ := equal_options_read_alike o o' (by decide +kernel) rfl rfl
  have hread := halike (hagree (by decide)) Parser.limits "f (g [x, e]) x".toList
  rw [show parseWithin Parser.limits o "f (g [x, e]) x".toList = .ok t from ht] at hread
  obtain ⟨t', ht', hsame⟩ := hread.exists_of_ok
  exact ⟨t, t', ht, ht', hsame⟩

theorem first_overload_is_called :
    let f : Definition := ⟨.of "f" 1 1, none⟩
    let f' : Definition := ⟨.of "f" 2 2, none⟩
    let o : Options := { functions := .ofList [f, f'] }
    let o' : Options := { functions := .ofList [f', f] }
    o.same o' = true ∧ checkDeclarations o.variableNames o.functions.signatures = .ok () ∧
      checkDeclarations o'.variableNames o'.functions.signatures = .ok () ∧
      (parse o "f(1)").isOk = true ∧ (parse o' "f(1)").isOk = false ∧
      ¬ Parallel (fun _ _ => True) (fun t t' => t.same t' = true) (parse o "f(1)")
        (parse o' "f(1)") := by
  intro f f' o o'
  have hread : (parse o "f(1)").isOk = true := by decide +kernel
  have hrefused : (parse o' "f(1)").isOk = false := by decide +kernel
  refine ⟨by decide +kernel, rfl, rfl, hread, hrefused, fun h => ?_⟩
  obtain ⟨t, ht⟩ := exists_of_isOk hread
  rw [ht] at h
  obtain ⟨t', ht', -⟩ := h.exists_of_ok
  rw [ht'] at hrefused
  cases hrefused

end Formula
