import Formula.Proofs.Limits
import Formula.Proofs.Written
import Mathlib.Data.List.Pairwise

/-!
# Formulas with all brackets are read back

The text of a valid source term is read as the tree of that term, if its brackets
are not nested too deep. Only the nesting can stand in the way: a tower of more
levels than can be read has no tree under any limit.
-/

namespace Formula

variable {o : Options}

/-- Every name of a formula means one thing, whatever it is called with. -/
structure Unambiguous (o : Options) : Prop extends Declared o where
  distinct : o.functions.textNames.Nodup
  not_constant : ∀ name ∈ ["e", "pi", "π"], name ∉ o.functions.textNames

theorem Unambiguous.words_not_constant (h : Unambiguous o) (hd : d ∈ o.functions.definitions) :
    d.signature.name.words ∉ Builtin.constantNames := by
  obtain ⟨name, hname, -, -⟩ := h.isValid_function d hd
  rw [hname]
  exact fun hc => h.not_constant name hc (Options.mem_textNames.mpr ⟨d, hd, hname⟩)

-- ---------------------------------------------------------------------------
-- Names of functions
-- ---------------------------------------------------------------------------

namespace Part

theorem not_mem_constantNames (h : name ∈ Builtin.functionNames) :
    name ∉ Builtin.constantNames := by
  revert name
  decide

theorem nameLeaf_builtin (declared : Declared o) (h : name ∈ Builtin.functionNames) :
    nameLeaf o.variableNames.texts (.pending name) = .pending name := by
  refine nameLeaf_eq_self (fun hv => ?_) (not_mem_constantNames h)
  have hvalid := declared.isValid_variable name hv
  simp [Name.isValid, h] at hvalid

theorem callee?_builtin (h : name ∉ o.functions.textNames)
    (hf : Builtin.function? name = some f) :
    callee? o.functions (.pending name) = some (.builtin name f) := by
  have hd : o.functions.byName? (.text name) = none := by
    refine Option.eq_none_iff_forall_ne_some.mpr fun d hd => h ?_
    exact Options.mem_textNames.mpr ⟨d, Options.byName?_eq_some hd⟩
  exact callee?_eq_some.mpr ⟨name, rfl, .inr ⟨hd, f, hf, rfl⟩⟩

theorem call?_builtinTree (h : name ∈ Builtin.functionNames) (es : List Expr)
    (hes : es.length = 1 ∨ name = "log" ∧ es.length = 2) :
    ∃ f, Builtin.function? name = some f ∧ f.call? es = some (builtinTree name es) ∧
      (builtinTree name es).isNumeric = true := by
  rcases hes with hes | ⟨rfl, hes⟩
  · obtain ⟨x, rfl⟩ := List.length_eq_one_iff.mp hes
    simp only [Builtin.functionNames, Builtin.functions, List.map_cons, List.map_nil, List.mem_cons,
      List.not_mem_nil, or_false] at h
    rcases h with rfl | rfl | rfl | rfl | rfl | rfl | rfl | rfl | rfl | rfl | rfl | rfl | rfl |
      rfl | rfl | rfl | rfl | rfl | rfl <;> exact ⟨_, rfl, rfl, rfl⟩
  · obtain ⟨base, x, rfl⟩ := List.length_eq_two.mp hes
    exact ⟨_, rfl, rfl, rfl⟩

theorem eq_of_name (hdistinct : o.functions.textNames.Nodup) (hd : d ∈ o.functions.definitions)
    (hd' : d' ∈ o.functions.definitions) (hname : d.signature.name = .text name)
    (hname' : d'.signature.name = .text name) : d = d' := by
  have hpair := hdistinct
  rw [FunctionTable.textNames, FunctionTable.names, FunctionTable.signatures,
    List.nodup_iff_pairwise_ne, List.pairwise_filterMap, List.pairwise_map,
    List.pairwise_map] at hpair
  have hsymm : Std.Symm fun d d' : Definition => ∀ a, d.signature.name.text? = some a →
      ∀ b, d'.signature.name.text? = some b → a ≠ b :=
    ⟨fun d d' h a ha b hb => (h b hb a ha).symm⟩
  by_contra hne
  exact hpair.forall hd hd' hne name (by rw [hname]; rfl) name (by rw [hname']; rfl) rfl

theorem byName?_declared (hdistinct : o.functions.textNames.Nodup)
    (hd : d ∈ o.functions.definitions) (hname : d.signature.name = .text name) :
    o.functions.byName? (.text name) = some d := by
  cases hfind : o.functions.byName? (.text name) with
  | none =>
    have hnone := List.find?_eq_none.mp hfind d hd
    simp [hname] at hnone
  | some d' =>
    obtain ⟨hd', hname'⟩ := Options.byName?_eq_some hfind
    rw [eq_of_name hdistinct hd hd' hname hname']

theorem nameLeaf_declared (declared : Declared o) (hd : d ∈ o.functions.definitions)
    (hname : d.signature.name = .text name) (hc : name ∉ Builtin.constantNames) :
    nameLeaf o.variableNames.texts (.pending name) = .pending name := by
  obtain ⟨name', hname', -, hv⟩ := declared.isValid_function d hd
  rw [hname] at hname'
  cases hname'
  exact nameLeaf_eq_self hv hc

end Part

-- ---------------------------------------------------------------------------
-- Reading a term
-- ---------------------------------------------------------------------------

namespace Source

theorem isNumeric_tree {t : Source} (h : t.Valid o) : (t.tree o).isNumeric = true := by
  cases t with
  | constant name =>
    rw [tree]
    split <;> rfl
  | binary op b l b' r =>
    cases op with
    | power => exact Part.raise_isNumeric _ _
    | minus => exact Part.difference_isNumeric _ _
    | _ => rfl
  | builtin name b ts =>
    obtain ⟨hname, -, hlength, -⟩ := h
    obtain ⟨f, -, -, hnumeric⟩ := Part.call?_builtinTree hname (trees o ts)
      (by rwa [trees_eq, List.length_map])
    exact hnumeric
  | _ => rfl

theorem sum_tree (op : Operation) {x y : Expr} (hx : x.isNumeric = true) (hy : y.isNumeric = true) :
    Part.Sum o [.tree x, .pending (.ofList [op.symbol]), .tree y] (op.tree o x y) := by
  cases op with
  | plus => exact .plus (Part.sum_tree hx) (.run (Part.run_tree hy))
  | minus => exact .minus (Part.sum_tree hx) (.run (Part.run_tree hy))
  | times => exact .product (.times (.run (Part.run_tree hx)) (Part.run_tree hy))
  | divided => exact .product (.divided (.run (Part.run_tree hx)) (Part.run_tree hy))
  | power =>
    exact .product (.run (.power (.power (.factor (.node (Part.node_tree hx)))
      (.node (Part.node_tree hy)))))

theorem nesting_argument_lt {ts : List Source} (b : Bracket) (hword : Name.isWord word = true)
    (hts : ∀ t ∈ ts, Bracket.Whole t.text) (ht : t ∈ ts) :
    Bracket.nesting t.text <
      Bracket.nesting (word ++ b.opener :: ([','].intercalate (texts ts) ++ [b.closer])) := by
  have hheight : Bracket.height word = 0 := (whole_of_isWord hword).1.height_eq_zero
  refine Nat.lt_of_le_of_lt ?_ (Bracket.nesting_group_lt b hheight _ _)
  rw [texts_eq]
  refine Bracket.nesting_le_intercalate (fun s hs => ?_) (List.mem_map_of_mem ht)
  obtain ⟨t', ht', rfl⟩ := List.mem_map.mp hs
  exact (hts t' ht').1.weaken

theorem forall₂_arguments {R : List Char → Expr → Prop} {ts : List Source}
    (hts : ∀ t ∈ ts, Bracket.Whole t.text) (h : ∀ t ∈ ts, R t.text (t.tree o)) :
    List.Forall₂ R (Bracket.arguments ([','].intercalate (texts ts))) (trees o ts) := by
  have hwhole : ∀ s ∈ texts ts, Bracket.Whole s := by
    rw [texts_eq]
    exact List.forall_mem_map.mpr hts
  rw [Bracket.arguments_intercalate hwhole, texts_eq, trees_eq, List.forall₂_map_left_iff,
    List.forall₂_map_right_iff, List.forall₂_same]
  exact h

theorem arguments?_trees {ts : List Source} (hts : ∀ t ∈ ts, t.Valid o) :
    (Parser.ofGroup (trees o ts)).arguments? = some (trees o ts) := by
  refine Parser.arguments?_ofGroup ?_
  rw [trees_eq]
  exact List.forall_mem_map.mpr fun t ht => isNumeric_tree (hts t ht)

theorem readAt_name (declared : Declared o) (hword : Word.ofString name ∈ o.vocabulary.words)
    (hleaf : Part.nameLeaf o.variableNames.texts (.pending name) = .tree e)
    (he : e.isNumeric = true) (hdeep : o.isTooDeep depth = false) :
    (Parser.mk o o.vocabulary).readAt shown (room + 1) depth name.toList = .ok e := by
  have hs := declared.isWord hword
  have hreduce : Part.reduce o [Parser.ofToken ⟨.word, name.toList⟩] = .ok e := by
    rw [Parser.ofToken, String.ofList_toList]
    exact Part.reduce_name hleaf he
  exact Parser.readAt_leaf hdeep (Name.ne_nil_of_isWord hs)
    (fun c hc => (Name.mark_of_isWordChar (Name.isWordChar_of_isWord hs hc)).1)
    (Token.read_word hword hs) hreduce

theorem readAt_call {ts : List Source} (declared : Declared o) (b : Bracket)
    (hword : Word.ofString name ∈ o.vocabulary.words)
    (hleaf : Part.nameLeaf o.variableNames.texts (.pending name) = .pending name)
    (hc : Part.callee? o.functions (.pending name) = some c)
    (hcall : c.call (some (trees o ts)) = .ok e) (he : e.isNumeric = true)
    (hts : ∀ t ∈ ts, t.Valid o) (hdeep : o.isTooDeep depth = false)
    (hread : ∀ t ∈ ts,
      (Parser.mk o o.vocabulary).readAt shown room (depth + 1) t.text = .ok (t.tree o)) :
    (Parser.mk o o.vocabulary).readAt shown (room + 1) depth
      (name.toList ++ b.opener :: ([','].intercalate (texts ts) ++ [b.closer])) = .ok e := by
  have hs := declared.isWord hword
  have hwhole : ∀ t ∈ ts, Bracket.Whole t.text := fun t ht => whole_text declared t (hts t ht)
  have hreduce : Part.reduce o [Parser.ofToken ⟨.word, name.toList⟩,
      Parser.ofGroup (trees o ts)] = .ok e := by
    rw [Parser.ofToken, String.ofList_toList]
    exact Part.reduce_call hleaf hc (arguments?_trees hts) hcall he
  exact Parser.readAt_prefixed b hdeep (Name.ne_nil_of_isWord hs)
    (fun c hc => (Name.mark_of_isWordChar (Name.isWordChar_of_isWord hs hc)).1)
    (Token.read_word hword hs) (balanced_texts hwhole) (forall₂_arguments hwhole hread) hreduce

theorem readAt_literal (declared : Declared o) (ht : (literal whole fraction).Valid o)
    (hdeep : o.isTooDeep depth = false) :
    (Parser.mk o o.vocabulary).readAt shown (room + 1) depth (literal whole fraction).text =
      .ok ((literal whole fraction).tree o) := by
  obtain ⟨hne, hdigits⟩ := ht
  have htoken : Parser.ofToken ⟨.number, Token.digits whole fraction⟩ =
      .tree ((literal whole fraction).tree o) := by
    rw [Parser.ofToken, Token.ofNumeral_digits hdigits, tree]
  refine Parser.readAt_leaf hdeep (Token.digits_ne_nil hne fraction) (fun c hc => ?_)
    (Token.read_digits declared hne hdigits) ?_
  · exact (Name.mark_of_isWordChar (Token.isWordChar_of_mem_digits hdigits hc)).1
  · rw [htoken]
    exact Part.reduce_tree rfl

theorem readAt_constant (declared : Declared o) (ht : (constant name).Valid o)
    (hdeep : o.isTooDeep depth = false) :
    (Parser.mk o o.vocabulary).readAt shown (room + 1) depth (constant name).text =
      .ok ((constant name).tree o) := by
  have hword : Word.ofString name ∈ o.vocabulary.words :=
    Options.mem_vocabulary.mpr (.inr (.inr (.inl ht.1)))
  refine readAt_name declared hword ?_ (isNumeric_tree ht) hdeep
  have hconstant : Builtin.constant? name = some ((constant name).tree o) := by
    obtain ⟨hname, -⟩ := ht
    simp only [List.mem_cons, List.not_mem_nil, or_false] at hname
    rcases hname with rfl | rfl | rfl <;> rfl
  rw [Part.nameLeaf, if_neg ht.2, hconstant]

theorem readAt_negate (declared : Declared o) (b : Bracket) (ht : t.Valid o)
    (hdeep : o.isTooDeep depth = false)
    (hread : (Parser.mk o o.vocabulary).readAt shown room (depth + 1) t.text = .ok (t.tree o)) :
    (Parser.mk o o.vocabulary).readAt shown (room + 1) depth (negate b t).text =
      .ok ((negate b t).tree o) := by
  have hwhole := whole_text declared t ht
  have hminus : '-' ∈ ['+', '-', '^', '/', '*'] := by decide
  exact Parser.readAt_prefixed b hdeep (List.cons_ne_nil _ _) (List.forall_mem_singleton.mpr rfl)
    (Token.read_operator declared hminus) hwhole.1.weaken (Parser.forall₂_whole hwhole hread)
    (Part.reduce_negate (Part.not_mem_operator declared hminus) (isNumeric_tree ht))

theorem readAt_binary (declared : Declared o) (op : Operation) (b b' : Bracket) (hl : l.Valid o)
    (hr : r.Valid o) (hdeep : o.isTooDeep depth = false)
    (hx : (Parser.mk o o.vocabulary).readAt shown room (depth + 1) l.text = .ok (l.tree o))
    (hy : (Parser.mk o o.vocabulary).readAt shown room (depth + 1) r.text = .ok (r.tree o)) :
    (Parser.mk o o.vocabulary).readAt shown (room + 1) depth (binary op b l b' r).text =
      .ok ((binary op b l b' r).tree o) := by
  have hop := op.symbol_mem
  exact Parser.readAt_between b b' hdeep op.mark_symbol (Token.read_operator declared hop)
    (whole_text declared l hl) (whole_text declared r hr) hx hy
    (Part.reduce_between (Part.not_mem_operator declared hop)
      (sum_tree op (isNumeric_tree hl) (isNumeric_tree hr)))

theorem readAt_builtin (declared : Declared o) (ht : (builtin name b ts).Valid o)
    (hdeep : o.isTooDeep depth = false)
    (hread : ∀ t ∈ ts,
      (Parser.mk o o.vocabulary).readAt shown room (depth + 1) t.text = .ok (t.tree o)) :
    (Parser.mk o o.vocabulary).readAt shown (room + 1) depth (builtin name b ts).text =
      .ok ((builtin name b ts).tree o) := by
  have hnumeric := isNumeric_tree ht
  obtain ⟨hname, hfree, hlength, hts⟩ := ht
  have hword : Word.ofString name ∈ o.vocabulary.words :=
    Options.mem_vocabulary.mpr (.inr (.inr (.inr hname)))
  obtain ⟨f, hf, hcall, -⟩ := Part.call?_builtinTree hname (trees o ts)
    (by rwa [trees_eq, List.length_map])
  exact readAt_call declared b hword (Part.nameLeaf_builtin declared hname)
    (Part.callee?_builtin hfree hf) (Part.Callee.call_builtin_eq_ok.mpr ⟨_, rfl, hcall⟩) hnumeric
    (validAll_iff.mp hts) hdeep hread

theorem readAt_first (hdeclared : Declared o) (hname : d.signature.name = .text name)
    (hfirst : o.functions.byName? (.text name) = some d) (hconstant : name ∉ Builtin.constantNames)
    (ht : (declared d b ts).Valid o) (hdeep : o.isTooDeep depth = false)
    (hread : ∀ t ∈ ts,
      (Parser.mk o o.vocabulary).readAt shown room (depth + 1) t.text = .ok (t.tree o)) :
    (Parser.mk o o.vocabulary).readAt shown (room + 1) depth (declared d b ts).text =
      .ok ((declared d b ts).tree o) := by
  obtain ⟨hd, haccepts, hts⟩ := ht
  have hword : Word.ofString name ∈ o.vocabulary.words :=
    Options.mem_vocabulary.mpr (.inr (.inl ⟨d, hd, hname⟩))
  have hcallee : Part.callee? o.functions (.pending name) = some (.declared d) :=
    Part.callee?_eq_some.mpr ⟨name, rfl, .inl ⟨d, hfirst, rfl⟩⟩
  have hwords : d.signature.name.words = name := by rw [hname]; rfl
  rw [text, hwords]
  have hcall : (Part.Callee.declared d).call (some (trees o ts)) = .ok (.call d (trees o ts)) := by
    refine Part.Callee.call_declared_eq_ok.mpr ⟨?_, rfl⟩
    rwa [Option.getD_some, trees_eq, List.length_map]
  exact readAt_call hdeclared b hword (Part.nameLeaf_declared hdeclared hd hname hconstant)
    hcallee hcall rfl (validAll_iff.mp hts) hdeep hread

theorem readAt_declared (hdeclared : Declared o) (hdistinct : o.functions.textNames.Nodup)
    (hconstant : d.signature.name.words ∉ Builtin.constantNames)
    (ht : (declared d b ts).Valid o) (hdeep : o.isTooDeep depth = false)
    (hread : ∀ t ∈ ts,
      (Parser.mk o o.vocabulary).readAt shown room (depth + 1) t.text = .ok (t.tree o)) :
    (Parser.mk o o.vocabulary).readAt shown (room + 1) depth (declared d b ts).text =
      .ok ((declared d b ts).tree o) := by
  obtain ⟨name, hname, -, -⟩ := hdeclared.isValid_function d ht.1
  rw [hname] at hconstant
  exact readAt_first hdeclared hname (Part.byName?_declared hdistinct ht.1 hname) hconstant ht hdeep
    hread

/-- A valid term is read back wherever its text fits. -/
theorem readAt_text (ho : Unambiguous o) (t : Source) (ht : t.Valid o)
    (hfits : Fits o room depth t.text) :
    (Parser.mk o o.vocabulary).readAt shown room depth t.text = .ok (t.tree o) := by
  have declared := ho.toDeclared
  -- Each pair of brackets takes one level of the room, so the terms within have to fit
  -- in what is left of it.
  induction t using Source.induction generalizing room depth with
  | literal whole fraction =>
    obtain ⟨room, rfl⟩ := hfits.exists_room
    exact readAt_literal declared ht hfits.here
  | named name =>
    obtain ⟨room, rfl⟩ := hfits.exists_room
    have hword : Word.ofString name ∈ o.vocabulary.words := Options.mem_vocabulary.mpr (.inl ht)
    exact readAt_name declared hword (if_pos ht) rfl hfits.here
  | constant name =>
    obtain ⟨room, rfl⟩ := hfits.exists_room
    exact readAt_constant declared ht hfits.here
  | negate b t ih =>
    obtain ⟨room, rfl⟩ := hfits.exists_room
    have hheight : Bracket.height ['-'] = 0 := rfl
    have hinner := hfits.inner (Bracket.nesting_group_lt b hheight t.text [b.closer])
    exact readAt_negate declared b ht hfits.here (ih ht hinner)
  | binary op b l b' r ihl ihr =>
    obtain ⟨room, rfl⟩ := hfits.exists_room
    obtain ⟨hl, hr⟩ := ht
    have hbalanced := (whole_text declared l hl).1
    have hinl := hfits.inner (Bracket.nesting_left_lt b l.text _)
    have hinr := hfits.inner
      (Bracket.nesting_right_lt b b' hbalanced op.mark_symbol r.text [b'.closer])
    exact readAt_binary declared op b b' hl hr hfits.here (ihl hl hinl) (ihr hr hinr)
  | builtin name b ts ih =>
    obtain ⟨room, rfl⟩ := hfits.exists_room
    have hts := validAll_iff.mp ht.2.2.2
    refine readAt_builtin declared ht hfits.here fun t hmem => ?_
    refine ih t hmem (hts t hmem) (hfits.inner ?_)
    exact nesting_argument_lt b (isWord_builtin ht.1)
      (fun t hmem => whole_text declared t (hts t hmem)) hmem
  | declared d b ts ih =>
    obtain ⟨room, rfl⟩ := hfits.exists_room
    have hts := validAll_iff.mp ht.2.2
    have hconstant := ho.words_not_constant ht.1
    refine readAt_declared declared ho.distinct hconstant ht hfits.here fun t hmem => ?_
    refine ih t hmem (hts t hmem) (hfits.inner ?_)
    exact nesting_argument_lt b (isWord_declared declared ht.1)
      (fun t hmem => whole_text declared t (hts t hmem)) hmem

end Source

-- ---------------------------------------------------------------------------
-- The limits
-- ---------------------------------------------------------------------------

/-- The text of every valid term is read as the tree of the term, unless its brackets
are nested deeper than the limit or the levels that can be read. -/
theorem text_is_read_back (o : Options) (t : Source)
    (hcheck : checkDeclarations o.variableNames o.functions.signatures = .ok ())
    (hdistinct : o.functions.textNames.Nodup)
    (hconstants : ∀ name ∈ ["e", "pi", "π"], name ∉ o.functions.textNames)
    (ht : t.Valid o) (hlimit : o.isTooDeep (Bracket.nesting t.text) = false) :
    (∃ l : Parser.Limits, l.Govern) ∧
    ∀ l : Parser.Limits, Bracket.nesting t.text < l.brackets →
      parseWithin l o t.text = .ok (t.tree o) := by
  have ho : Unambiguous o := ⟨checkDeclarations_eq_ok.mp hcheck, hdistinct, hconstants⟩
  exact ⟨Parser.exists_govern, fun l hl =>
    parseWithin_eq_ok.mpr ⟨hcheck, Source.readAt_text ho t ht (fits_of_nesting hlimit hl)⟩⟩

/-- A call without arguments inside a call of a built-in function, whose name begins
with the name of the declared one. -/
theorem text_is_read_back_shared_beginning :
    let d : Definition := ⟨.of "lo" 0 2, none⟩
    let o : Options := { functions := .ofList [d] }
    parse o "(e)^[-(log[x,lo()])]" =
      .ok (.unary .exp (.unary .negate (.binary .log (.named "x") (.call d [])))) := by
  intro d o
  let t : Source := .binary .power .round (.constant "e") .square (.negate .round
    (.builtin "log" .square [.named "x", .declared d .round []]))
  have hx : "x" ∈ o.variableNames.texts := by decide
  have ht : t.Valid o :=
    ⟨⟨by decide, by decide⟩, by decide, by decide, .inr ⟨rfl, rfl⟩, hx,
      ⟨List.mem_singleton_self d, by decide, trivial⟩, trivial⟩
  have htext : String.ofList t.text = "(e)^[-(log[x,lo()])]" := by decide
  have htree : t.tree o =
      .unary .exp (.unary .negate (.binary .log (.named "x") (.call d []))) := rfl
  have hread := text_is_read_back o t rfl (by decide) (by decide) ht (by decide +kernel)
  rw [← htext, ← htree, parse_ofList]
  exact hread.2 Parser.limits (by decide +kernel)

namespace Source

def tower (name : String) : Nat → Source
  | 0 => .named name
  | n + 1 => .negate .round (tower name n)

theorem tower_valid (h : name ∈ o.variableNames.texts) (n : Nat) : (tower name n).Valid o := by
  induction n with
  | zero => exact h
  | succ n ih => exact ih

theorem nesting_tower (declared : Declared o) (h : name ∈ o.variableNames.texts) (n : Nat) :
    Bracket.nesting (tower name n).text = n := by
  induction n with
  | zero =>
    exact Bracket.nesting_of_plain fun c hc => (Name.mark_of_isWordChar
      (Name.isWordChar_of_isWord (isWord_named declared h) hc)).1
  | succ n ih =>
    rw [tower, text, Bracket.nesting_prefixed .round (List.forall_mem_singleton.mpr rfl)
      (whole_text declared _ (tower_valid h n)).1, ih]

theorem readAt_tower (declared : Declared o) (h : name ∈ o.variableNames.texts)
    (hlimit : ∀ k ≤ room, o.isTooDeep (depth + k) = false) (hroom : room ≤ n) :
    (Parser.mk o o.vocabulary).readAt shown room depth (tower name n).text = .error .exhausted := by
  have hwhole : ∀ n, Bracket.Whole (tower name n).text := fun n =>
    whole_text declared _ (tower_valid h n)
  refine Parser.readAt_exhausted hwhole (fun n => ⟨1, ['-'], .round, ?_⟩) hlimit hroom
  exact Bracket.segments_prefixed .round (List.cons_ne_nil '-' [])
    (List.forall_mem_singleton.mpr rfl) (hwhole n).1

theorem parse_tower
    (hcheck : checkDeclarations o.variableNames o.functions.signatures = .ok ())
    (h : name ∈ o.variableNames.texts) (hlimit : o.isTooDeep n = false)
    (hn : Parser.limits.brackets ≤ n) :
    (tower name n).Valid o ∧ o.isTooDeep (Bracket.nesting (tower name n).text) = false ∧
      parse o (.ofList (tower name n).text) = .error .exhausted := by
  have declared := checkDeclarations_eq_ok.mp hcheck
  have hread : parse o (.ofList (tower name n).text) = .error .exhausted := by
    rw [parse_ofList, parseWithin_of_check hcheck]
    refine readAt_tower declared h (fun k hk => ?_) hn
    rw [Nat.zero_add]
    exact Options.isTooDeep_of_le (Nat.le_trans hk hn) hlimit
  refine ⟨tower_valid h n, ?_, hread⟩
  rwa [nesting_tower declared h]

end Source

/-- A great limit alone does not make a deep formula readable. -/
theorem tall_tower_is_refused :
    let o : Options := { maxDepth := .whole 1000 }
    let t := Source.tower "x" 800
    checkDeclarations o.variableNames o.functions.signatures = .ok () ∧
      o.functions.textNames.Nodup ∧ (∀ name ∈ ["e", "pi", "π"], name ∉ o.functions.textNames) ∧
      t.Valid o ∧ o.isTooDeep (Bracket.nesting t.text) = false ∧
      parse o (.ofList t.text) = .error .exhausted := by
  intro o t
  have hcheck : checkDeclarations o.variableNames o.functions.signatures = .ok () := rfl
  have hnone : o.functions.textNames = [] := rfl
  have hx : "x" ∈ o.variableNames.texts := by decide
  have hlimit : o.isTooDeep 800 = false := by decide
  rw [hnone]
  exact ⟨hcheck, .nil, fun _ _ => List.not_mem_nil,
    Source.parse_tower hcheck hx hlimit (by decide)⟩

end Formula
