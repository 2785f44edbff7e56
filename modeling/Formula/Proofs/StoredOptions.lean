import Formula.Options.Stored
import Formula.Proofs.EqualOptions
import Formula.Proofs.Erasing
import Formula.Proofs.StoredTrees

/-!
# Storing options and reading them again

Stored options are read as the options without the bodies of their functions, which keep their
order. So a formula is read under them as under the options themselves, but for the bodies in its
tree.
-/

namespace Formula

open Datum (field? Reordered ReorderedItems)

variable {o : Options}

/-- Options with texts for the names of variables, and with whole numbers for the bounds of
argument counts and for the greatest depth. The names of functions can be gathered. -/
structure Options.Storable (o : Options) : Prop where
  strays_eq : o.variableNames.strays = []
  isAtom_name : ∀ d ∈ o.functions.definitions, d.signature.name.isAtom = true
  isWhole_range : ∀ d ∈ o.functions.definitions, ∃ least most : Int,
    d.signature.least = .scalar (.whole least) ∧ d.signature.most = .scalar (.whole most)
  isWhole_maxDepth : ∃ n : Int, o.maxDepth = .whole n

theorem Options.Storable.isAtomic (h : o.Storable) (hd : d ∈ o.functions.definitions) :
    d.signature.isAtomic = true := by
  obtain ⟨least, most, hleast, hmost⟩ := h.isWhole_range d hd
  rw [Signature.isAtomic, h.isAtom_name d hd, hleast, hmost]
  rfl

-- ---------------------------------------------------------------------------
-- Names and tables
-- ---------------------------------------------------------------------------

theorem OrderedSet.ofList_toList {α : Type} [Ord α] [Std.TransOrd α] [Std.LawfulEqOrd α]
    (s : OrderedSet α) : ofList s.toList = s :=
  eq_of_mem_iff fun _ => mem_ofList

theorem NameSet.ofTexts_toList {names : NameSet} (h : names.strays = []) :
    ofTexts names.texts.toList = names := by
  rw [ofTexts, OrderedSet.ofList_toList, ← h]

theorem Datum.variableNames_texts (names : List String) :
    variableNames (.list (names.map .text)) = .ok (.ofTexts names) := by
  simp [variableNames, Datum.names, elements, ofData?_texts]
  rfl

theorem keepFirst_eq_self {ds : List Definition} (h : Distinct ds) : keepFirst ds = ds := by
  induction ds with
  | nil => rfl
  | cons d ds ih =>
    obtain ⟨hd, hds⟩ := List.pairwise_cons.mp h
    rw [keepFirst, ih hds, List.filter_eq_self.mpr fun e he => by simp [hd e he]]

theorem FunctionTable.ofList_signatures (t : FunctionTable) :
    ofList (t.signatures.map (⟨·, none⟩)) = t.erase := by
  have hdefinitions : t.signatures.map (Definition.mk · none) = t.definitions.map .erase := by
    simp [signatures, Definition.erase]
  simp only [ofList, erase, hdefinitions, keepFirst_eq_self (distinct_map_erase t.distinct)]

theorem eq_of_reorderedItems {ds es : List Datum} (h : ReorderedItems ds es)
    (hds : ∀ d ∈ ds, d.isAtom = true) : ds = es := by
  rw [Datum.reorderedItems_iff] at h
  induction h with
  | nil => rfl
  | cons hd _ ih =>
    obtain ⟨ha, hds⟩ := List.forall_mem_cons.mp hds
    rw [hd.eq_of_isAtom ha, ih hds]

theorem FunctionTable.ofDatum?_of_reordered {t : FunctionTable}
    (ht : ∀ d ∈ t.definitions, d.signature.isAtomic = true)
    (h : ReorderedItems (t.signatures.map Signature.toDatum) ds) :
    ofDatum? (.list ds) = .ok t.erase := by
  have hread : ds.mapM (fun d => do (← Signature.ofDatum? d).gathered) = .ok t.signatures := by
    refine mapM_eq_ok.mpr ?_
    rw [Datum.reorderedItems_iff, List.forall₂_map_left_iff] at h
    refine (forall₂_mem h).flip.imp fun d s hs => ?_
    obtain ⟨hs, -, hd⟩ := hs
    obtain ⟨d', hd', rfl⟩ := List.mem_map.mp hs
    obtain ⟨s', hread, hkept⟩ := Signature.exists_kept hd
    rw [hkept.eq (ht d' hd')] at hread
    simp [hread, Signature.gathered, ht d' hd']
  rw [← ofList_signatures]
  simp only [ofDatum?, Datum.elements, ok_bind, hread]
  rfl

-- ---------------------------------------------------------------------------
-- Options
-- ---------------------------------------------------------------------------

namespace Options

variable {o' : Options}

/-- The second options are the first ones without bodies, but for the order of fields in switches
that have parts. -/
structure Kept (o o' : Options) : Prop where
  minusIsNegative : o.minusIsNegative.Reordered o'.minusIsNegative
  implicitProduct : o.implicitProduct.Reordered o'.implicitProduct
  variableNames : o'.variableNames = o.variableNames
  functions : o'.functions = o.functions.erase
  maxDepth : o'.maxDepth = o.maxDepth

theorem Kept.erased (h : o.Kept o') : o.Erased o' where
  minusIsNegative := h.minusIsNegative.holds_eq
  implicitProduct := h.implicitProduct.holds_eq
  variableNames := h.variableNames
  functions := h.functions
  maxDepth := h.maxDepth

theorem Kept.same (h : o.Kept o') (ho : o.Storable)
    (hminus : o.minusIsNegative.same o.minusIsNegative = true)
    (hproduct : o.implicitProduct.same o.implicitProduct = true)
    (hnames : ∀ d ∈ o.functions.definitions, d.signature.name.same d.signature.name = true) :
    o'.same o = true := by
  have hsignature : ∀ s ∈ o.functions.signatures, s.same s = true := by
    intro s hs
    obtain ⟨d, hd, rfl⟩ := List.mem_map.mp hs
    obtain ⟨least, most, hleast, hmost⟩ := ho.isWhole_range d hd
    simp [Signature.same, hnames d hd, hleast, hmost]
  have hfunctions : o'.functions.same o.functions = true := by
    rw [h.functions, FunctionTable.same, FunctionTable.signatures_erase, Bool.and_self]
    exact List.all_eq_true.mpr fun s hs => List.any_eq_true.mpr ⟨s, hs, hsignature s hs⟩
  have hvariables : o'.variableNames.same o.variableNames = true := by
    simp [h.variableNames, NameSet.same, ho.strays_eq]
  have hdepth : o'.maxDepth.same o.maxDepth = true := by
    obtain ⟨n, hn⟩ := ho.isWhole_maxDepth
    simp [h.maxDepth, hn]
  exact same_iff.mpr ⟨(h.minusIsNegative.same_eq _ _ _).trans hminus,
    (h.implicitProduct.same_eq _ _ _).trans hproduct, hvariables, hfunctions, hdepth⟩

theorem toDatum?_of_storable (h : o.Storable) :
    o.toDatum? = .ok (.record [
      ("is_minus_negative_function", o.minusIsNegative),
      ("is_implicit_multiplication", o.implicitProduct),
      ("variable_names", .list (o.variableNames.texts.toList.map .text)),
      ("custom_functions", .list (o.functions.signatures.map Signature.toDatum)),
      ("max_depth", .scalar o.maxDepth)]) := by
  simp [toDatum?, NameSet.ascending?, h.strays_eq]

theorem withSettings_eq_ok {p : Options} {s : Settings} (h : s.maxDepth = some p.maxDepth) :
    o.withSettings s = .ok {
      minusIsNegative := s.minusIsNegative.getD o.minusIsNegative
      implicitProduct := s.implicitProduct.getD o.implicitProduct
      variableNames := s.variableNames.getD o.variableNames
      functions := s.functions.getD o.functions
      maxDepth := p.maxDepth
      maxDepth_pos := p.maxDepth_pos } := by
  have hpos := p.maxDepth_pos
  obtain ⟨_, _, _, _, _⟩ := s
  cases h
  unfold withSettings
  dsimp only [Option.getD_some]
  split <;> simp_all

theorem exists_kept (h : o.Storable) (hd : o.toDatum? = .ok d) (hr : d.Reordered d') :
    ∃ o', ofDatum? d' = .ok o' ∧ o.Kept o' := by
  rw [toDatum?_of_storable h] at hd
  cases hd
  obtain ⟨fs, rfl, hfs⟩ := hr.exists_record (by simp)
  obtain ⟨minus, hminus, hm⟩ := hfs "is_minus_negative_function" o.minusIsNegative
    (by simp [field?])
  obtain ⟨product, hproduct, hp⟩ := hfs "is_implicit_multiplication" o.implicitProduct
    (by simp [field?])
  obtain ⟨_, hnames, _ | _ | hvs⟩ := hfs "variable_names"
    (.list (o.variableNames.texts.toList.map .text)) (by simp [field?])
  obtain ⟨_, hfunctions, _ | _ | hts⟩ := hfs "custom_functions"
    (.list (o.functions.signatures.map Signature.toDatum)) (by simp [field?])
  obtain ⟨_, hdepth, ⟨⟩⟩ := hfs "max_depth" (.scalar o.maxDepth) (by simp [field?])
  have hatoms : ∀ d ∈ o.variableNames.texts.toList.map Datum.text, d.isAtom = true :=
    List.forall_mem_map.mpr fun _ _ => rfl
  cases eq_of_reorderedItems hvs hatoms
  have hread := FunctionTable.ofDatum?_of_reordered (fun d => h.isAtomic) hts
  refine ⟨{ o with
    minusIsNegative := minus
    implicitProduct := product
    functions := o.functions.erase }, ?_, hm, hp, rfl, rfl, rfl⟩
  simp only [ofDatum?, optional, hminus, hproduct, hnames, hfunctions, hdepth, hread,
    Datum.variableNames_texts, NameSet.ofTexts_toList h.strays_eq, Datum.number, ok_bind, ok_map]
  exact withSettings_eq_ok (p := o) rfl

end Options

/-- Storable options can be stored, and are read again in any order of fields: without the bodies
of their functions, which keep their order, and equal to what they were. Under them every text has
the same tree without bodies, or the same error, within whatever limits it is read. -/
theorem stored_options_are_read_back (o : Options) (ho : o.Storable) :
    (∃ l : Parser.Limits, l.Govern) ∧
    ∃ d, o.toDatum? = .ok d ∧ ∀ d', d.Reordered d' → ∃ o', Options.ofDatum? d' = .ok o' ∧
      o.Kept o' ∧
      (o.minusIsNegative.same o.minusIsNegative = true →
        o.implicitProduct.same o.implicitProduct = true →
        (∀ f ∈ o.functions.definitions, f.signature.name.same f.signature.name = true) →
        o'.same o = true) ∧
      ∀ l text, Parallel (fun err err' => err.mapTrees Expr.erase = err')
        (fun t t' => t.erase = t') (parseWithin l o text) (parseWithin l o' text) := by
  refine ⟨Parser.exists_govern, _, Options.toDatum?_of_storable ho, fun d' hd => ?_⟩
  obtain ⟨o', hread, hkept⟩ := Options.exists_kept ho (Options.toDatum?_of_storable ho) hd
  exact ⟨o', hread, hkept, hkept.same ho, parseWithin_of_erased hkept.erased⟩

theorem stored_options_are_read_back_reversed :
    let f : Definition := ⟨.of "f" 1 2, some .first⟩
    let o : Options := {
      minusIsNegative := .scalar (.truth true)
      functions := .ofList [f]
      maxDepth := .whole 7 }
    let d : Datum := .record [
      ("max_depth", .scalar (.whole 7)),
      ("custom_functions", .list [f.signature.toDatum]),
      ("variable_names", .list [.text "x"]),
      ("is_implicit_multiplication", .scalar (.truth true)),
      ("is_minus_negative_function", .scalar (.truth true))]
    ∃ o', Options.ofDatum? d = .ok o' ∧ o'.same o = true ∧
      ∃ t, parse o "1 - f(x)" = .ok t ∧ parse o' "1 - f(x)" = .ok t.erase := by
  intro f o d
  have hdefs : o.functions.definitions = [f] := rfl
  have ho : o.Storable := {
    strays_eq := rfl
    isAtom_name := by simp [hdefs, f, Signature.of, Datum.isAtom]
    isWhole_range := by simp [hdefs, f, Signature.of]
    isWhole_maxDepth := ⟨7, rfl⟩ }
  obtain ⟨-, d₀, hd₀, hread⟩ := stored_options_are_read_back o ho
  have hreordered : d₀.Reordered d := by
    rw [Options.toDatum?_of_storable ho] at hd₀
    cases hd₀
    exact .record (.refl _) (List.reverse_perm _).symm
  obtain ⟨o', ho', -, hsame, hparse⟩ := hread d hreordered
  refine ⟨o', ho', hsame rfl rfl (by simp [hdefs, f, Signature.of]), ?_⟩
  obtain ⟨t, ht⟩ := exists_of_isOk (show (parse o "1 - f(x)").isOk = true by decide +kernel)
  have hparse := hparse Parser.limits "1 - f(x)".toList
  rw [show parseWithin Parser.limits o "1 - f(x)".toList = .ok t from ht] at hparse
  obtain ⟨t', ht', rfl⟩ := hparse.exists_of_ok
  exact ⟨t, ht, ht'⟩

end Formula
