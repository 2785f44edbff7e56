import Formula.Proofs.Readings
import Formula.Proofs.Reduction

/-!
# Nothing in a text is passed over

A fragment that is no token stays among the parts through every pass, so a text
with one has no tree. Where there is a tree, every character of the text is a
blank, a bracket, a comma between arguments, or part of a known token.
-/

namespace Formula

variable {o : Options}

-- ---------------------------------------------------------------------------
-- Passes keep what they do not know
-- ---------------------------------------------------------------------------

namespace Part

variable {functions : FunctionTable}

theorem callee?_eq_none (h : Word.ofString name ∉ o.vocabulary.words) :
    callee? o.functions (.pending name) = none := by
  obtain ⟨-, hd, -, hb⟩ := Options.not_mem_vocabulary h
  simp [callee?, hd, function?_eq_none.mpr hb]

theorem nameLeaf_unknown (h : Word.ofString name ∉ o.vocabulary.words) :
    nameLeaf o.variableNames.texts (.pending name) = .pending name := by
  obtain ⟨hv, -, hc, -⟩ := Options.not_mem_vocabulary h
  exact nameLeaf_eq_self hv hc

theorem Called.eq_of_mem (h : Called functions ls p) (hn : callee? functions (.pending name) = none)
    (hm : .pending name ∈ ls) : p = .pending name := by
  cases h with
  | part => exact (List.mem_singleton.mp hm).symm
  | bare hc =>
    rw [← List.mem_singleton.mp hm, hn] at hc
    cases hc
  | applied hc hnext =>
    rcases List.mem_cons.mp hm with rfl | hm
    · rw [hn] at hc
      cases hc
    · rw [← List.mem_singleton.mp hm] at hnext
      cases hnext

theorem operator_of_sum (h : Sum o ps e) (hm : .pending name ∈ ps) :
    name ∈ ["+", "-", "*", "/", "^"] := by
  have hP : Kept o fun ps _ => ∀ name, .pending name ∈ ps → name ∈ ["+", "-", "*", "/", "^"] := by
    constructor
    case tree => intro e _ name hm; simp at hm
    case negated =>
      intro ps e h name hm
      rcases List.mem_cons.mp hm with hm | hm
      · cases hm; simp
      · exact h name hm
    case beside =>
      intro ls l rs r hl hr name hm
      exact (List.mem_append.mp hm).elim (hl name) (hr name)
    all_goals
      intro ls l rs r hl hr name hm
      rcases List.mem_append.mp hm with hm | hm
      · exact hl name hm
      rcases List.mem_cons.mp hm with hm | hm
      · cases hm; simp
      · exact hr name hm
  exact hP.sum h name hm

/-- Parts that have a tree hold no waiting text that is neither a word nor an operator. -/
theorem known_of_reduce (h : reduce o ps = .ok e) (hm : .pending name ∈ ps) :
    Word.ofString name ∈ o.vocabulary.words ∨ name ∈ ["+", "-", "*", "/", "^"] := by
  by_cases hw : Word.ofString name ∈ o.vocabulary.words
  · exact .inl hw
  obtain ⟨out, hout, hsum⟩ := reduce_eq_ok.mp h
  obtain ⟨called, hc, rfl⟩ := applyCalls_eq_ok.mp hout
  have hnamed : .pending name ∈ nameLeaves o.variableNames.texts ps :=
    List.mem_map.mpr ⟨_, hm, nameLeaf_unknown hw⟩
  have hcalled := (makeCalls_ok hc false).mem
    (fun _ _ _ hg hm => hg.eq_of_mem (callee?_eq_none hw) hm) hnamed
  exact .inr (operator_of_sum hsum (List.mem_filter.mpr ⟨hcalled, rfl⟩))

end Part

namespace Parser

variable {p : Parser}

theorem toList_operator (h : name ∈ ["+", "-", "*", "/", "^"]) :
    ∃ c, name.toList = [c] ∧ Token.isOperator c = true := by
  simp only [List.mem_cons, List.not_mem_nil, or_false] at h
  rcases h with rfl | rfl | rfl | rfl | rfl <;> exact ⟨_, rfl, rfl⟩

theorem known_of_mem_parts (ht : t ∈ Token.read o.vocabulary span)
    (h : Part.reduce o ps = .ok e) (hm : ofToken t ∈ ps) : t.kind ≠ .unknown := by
  intro hk
  obtain ⟨rest, hs⟩ := Token.mem_read ht
  obtain ⟨hop, hword⟩ := hs.unknown hk
  rw [ofToken, hk] at hm
  rcases Part.known_of_reduce h hm with hw | hops
  · rw [Word.ofString, String.toList_ofList] at hw
    exact hword hw
  · obtain ⟨c, hc, htrue⟩ := toList_operator hops
    rw [String.toList_ofList] at hc
    rw [hop c hc] at htrue
    cases htrue

theorem known_of_readAt (hv : p.vocabulary = p.options.vocabulary)
    (h : p.readAt shown room depth text = .ok e) :
    ∀ span ∈ Bracket.spans text, ∀ t ∈ Token.read p.options.vocabulary span,
      t.kind ≠ .unknown := by
  refine readAt_induction (P := fun text _ => ∀ span ∈ Bracket.spans text,
    ∀ t ∈ Token.read p.options.vocabulary span, t.kind ≠ .unknown) ?_ h
  rintro text e ⟨hsegs, hread, hreduce⟩ span hspan t ht
  rw [Bracket.spans_of_segments hsegs] at hspan
  obtain ⟨seg, hseg, hspan⟩ := List.mem_flatMap.mp hspan
  obtain ⟨parts, hparts, hseg⟩ := exists_of_mem_left hread hseg
  cases hseg with
  | plain =>
    rw [List.mem_singleton.mp hspan] at ht
    refine known_of_mem_parts ht hreduce (List.mem_flatten.mpr ⟨_, hparts, ?_⟩)
    rw [hv]
    exact List.mem_map_of_mem ht
  | group hes =>
    obtain ⟨argument, ha, hspan⟩ := List.mem_flatMap.mp hspan
    obtain ⟨_, -, h⟩ := exists_of_mem_left hes ha
    exact h span hspan t ht

theorem squeeze_flatMap_bare (texts : List (List Char)) :
    Text.squeeze (texts.flatMap Bracket.bare) =
      (texts.filter (!Text.isBlankText ·)).flatMap fun text =>
        Text.squeeze (Bracket.bare text) := by
  induction texts with
  | nil => rfl
  | cons text texts ih =>
    rw [List.flatMap_cons, Text.squeeze_append, ih, List.filter_cons]
    cases hb : Text.isBlankText text with
    | false => rfl
    | true =>
      have hsub := (Bracket.bareFrom_sublist 0 text).filter (!Text.isBlank ·)
      rw [← Text.squeeze, ← Text.squeeze, Text.squeeze_eq_nil.mpr hb] at hsub
      rw [Bracket.bare, List.sublist_nil.mp hsub]
      rfl

theorem squeeze_bare_of_readAt (h : p.readAt shown room depth text = .ok e) :
    Text.squeeze (Bracket.bare text) = (Bracket.spans text).flatMap Text.squeeze := by
  refine readAt_induction (P := fun text _ =>
    Text.squeeze (Bracket.bare text) = (Bracket.spans text).flatMap Text.squeeze) ?_ h
  rintro text e ⟨hsegs, hread, -⟩
  rw [← Bracket.flatMap_bare_segments hsegs, Bracket.spans_of_segments hsegs]
  clear hsegs
  induction hread with
  | nil => rfl
  | @cons seg parts segs partss hseg _ ih =>
    rw [List.flatMap_cons, Text.squeeze_append, ih, List.flatMap_cons, List.flatMap_append]
    congr 1
    cases hseg with
    | plain => simp [Bracket.Segment.bare, Bracket.Segment.spans]
    | group hes =>
      rw [Bracket.Segment.bare, ← Bracket.flatMap_bare_pieces, squeeze_flatMap_bare,
        Bracket.Segment.spans, List.flatMap_assoc, ← Bracket.arguments]
      refine List.flatMap_congr fun argument ha => ?_
      obtain ⟨_, -, h⟩ := exists_of_mem_left hes ha
      exact h

end Parser

-- ---------------------------------------------------------------------------
-- Characters of a text
-- ---------------------------------------------------------------------------

theorem isWordChar_of_mem (declared : Declared o) (ht : t ∈ Token.read o.vocabulary span)
    (hk : t.kind ≠ .unknown) (hc : c ∈ t.text) :
    Name.isWordChar c = true ∨ Text.isDigit c = true ∨ c = '.' ∨ Token.isOperator c = true := by
  obtain ⟨rest, hs⟩ := Token.mem_read ht
  cases hkind : t.kind with
  | word => exact .inl (Name.isWordChar_of_isWord (declared.isWord (hs.word hkind)) hc)
  | number => exact (hs.number hkind hc).elim (.inr ∘ .inl) (.inr ∘ .inr ∘ .inl)
  | operator =>
    obtain ⟨d, htext, hd, -⟩ := hs.operator hkind
    rw [htext, List.mem_singleton] at hc
    exact .inr (.inr (.inr (hc ▸ hd)))
  | unknown => exact absurd hkind hk

/-- Every character of a text that is read is a blank, punctuation, or one that tokens are
made of. -/
theorem char_of_readAt (declared : Declared o)
    (h : (Parser.mk o o.vocabulary).readAt shown room depth text = .ok e)
    (htext : text = before ++ c :: after) :
    Text.isBlank c = true ∨ Bracket.isPunctuation (Bracket.height before) c = true ∨
      Name.isWordChar c = true ∨ Text.isDigit c = true ∨ c = '.' ∨ Token.isOperator c = true := by
  cases hb : Text.isBlank c with
  | true => exact .inl rfl
  | false =>
    cases hp : Bracket.isPunctuation (Bracket.height before) c with
    | true => exact .inr (.inl rfl)
    | false =>
      obtain ⟨rest, hbare⟩ := Bracket.bare_split before after hp
      have hmem : c ∈ Text.squeeze (Bracket.bare text) := by
        simp [htext, hbare, Text.squeeze, hb]
      rw [Parser.squeeze_bare_of_readAt h] at hmem
      obtain ⟨span, hspan, hmem⟩ := List.mem_flatMap.mp hmem
      rw [← Token.flatMap_read o.vocabulary] at hmem
      obtain ⟨t, ht, hmem⟩ := List.mem_flatMap.mp hmem
      have hknown := Parser.known_of_readAt rfl h span hspan t ht
      exact .inr (.inr (isWordChar_of_mem declared ht hknown hmem))

theorem exists_token {ts : List Token} (h : ts.flatMap (·.text) = before ++ c :: after) :
    ∃ earlier t later start rest, ts = earlier ++ t :: later ∧ t.text = start ++ c :: rest ∧
      earlier.flatMap (·.text) ++ start = before := by
  induction ts generalizing before with
  | nil => simp at h
  | cons t ts ih =>
    rw [List.flatMap_cons, List.append_eq_append_iff] at h
    rcases h with ⟨more, rfl, hmore⟩ | ⟨more, htext, hmore⟩
    · obtain ⟨earlier, t', later, start, rest, rfl, ht', rfl⟩ := ih hmore
      exact ⟨t :: earlier, t', later, start, rest, rfl, ht', by simp⟩
    · cases more with
      | nil =>
        have hts : ts.flatMap (·.text) = [] ++ c :: after := hmore.symm
        obtain ⟨earlier, t', later, start, rest, rfl, ht', hstart⟩ := ih hts
        refine ⟨t :: earlier, t', later, start, rest, rfl, ht', ?_⟩
        simp [hstart, htext]
      | cons d more =>
        obtain ⟨rfl, hafter⟩ := List.cons.inj hmore
        exact ⟨[], t, ts, before, more, rfl, htext, rfl⟩

theorem squeeze_bare_parseWithin (h : parseWithin l o text = .ok e) :
    Text.squeeze (Bracket.bare text) = (tokens o text).flatMap (·.text) := by
  rw [Parser.squeeze_bare_of_readAt (parseWithin_eq_ok.mp h).2, tokens, List.flatMap_assoc]
  exact List.flatMap_congr fun span _ => (Token.flatMap_read o.vocabulary span).symm

theorem known_of_parseWithin (h : parseWithin l o text = .ok e) (ht : t ∈ tokens o text) :
    t.kind ≠ .unknown := by
  obtain ⟨span, hspan, ht⟩ := List.mem_flatMap.mp ht
  exact Parser.known_of_readAt rfl (parseWithin_eq_ok.mp h).2 span hspan t ht

theorem token_of_split (h : parseWithin l o text = .ok e) (htext : text = before ++ c :: after) :
    Text.isBlank c = true ∨ Bracket.isPunctuation (Bracket.height before) c = true ∨
      ∃ earlier t later start rest, tokens o text = earlier ++ t :: later ∧
        t.text = start ++ c :: rest ∧
        earlier.flatMap (·.text) ++ start = Text.squeeze (Bracket.bare before) := by
  subst htext
  cases hb : Text.isBlank c with
  | true => exact .inl rfl
  | false =>
    cases hp : Bracket.isPunctuation (Bracket.height before) c with
    | true => exact .inr (.inl rfl)
    | false =>
      obtain ⟨rest, hbare⟩ := Bracket.bare_split before after hp
      have hcons : Text.squeeze (c :: rest) = c :: Text.squeeze rest :=
        List.filter_cons_of_pos (by simp [hb])
      have htokens := squeeze_bare_parseWithin h
      rw [hbare, Text.squeeze_append, hcons] at htokens
      exact .inr (.inr (exists_token htokens.symm))

theorem not_mem_of_parseWithin (h : parseWithin l o text = .ok e) (hc : c ∈ ['=', '<', '>']) :
    c ∉ text := by
  intro hmem
  obtain ⟨hcheck, hread⟩ := parseWithin_eq_ok.mp h
  obtain ⟨before, after, htext⟩ := List.append_of_mem hmem
  have hnone : Text.isBlank c = false ∧ Name.isWordChar c = false ∧ Text.isDigit c = false ∧
      c ≠ '.' ∧ Token.isOperator c = false := by
    simp only [List.mem_cons, List.not_mem_nil, or_false] at hc
    rcases hc with rfl | rfl | rfl <;> decide
  have hpunctuation : ∀ depth, Bracket.isPunctuation depth c = false := by
    simp only [List.mem_cons, List.not_mem_nil, or_false] at hc
    rcases hc with rfl | rfl | rfl <;> exact fun _ => rfl
  have hchar := char_of_readAt (checkDeclarations_eq_ok.mp hcheck) hread htext
  simp [hnone, hpunctuation] at hchar

/-- Within whatever limits it is read, a formula has a tree only if all its tokens are known, and
they are all of it but blanks and punctuation. So no relation occurs in it, and one unknown fragment
at any level is an error. -/
theorem nothing_is_passed_over (o : Options) (l : Parser.Limits) (text : List Char) :
    (∃ l : Parser.Limits, l.Govern) ∧
    (∀ e, parseWithin l o text = .ok e →
      (∀ t ∈ tokens o text, t.kind ≠ .unknown) ∧
      Text.squeeze (Bracket.bare text) = (tokens o text).flatMap (·.text) ∧
      (∀ before c after, text = before ++ c :: after →
        Text.isBlank c = true ∨ Bracket.isPunctuation (Bracket.height before) c = true ∨
          ∃ earlier t later start rest, tokens o text = earlier ++ t :: later ∧
            t.kind ≠ .unknown ∧ t.text = start ++ c :: rest ∧
            earlier.flatMap (·.text) ++ start = Text.squeeze (Bracket.bare before)) ∧
      ∀ c ∈ ['=', '<', '>'], c ∉ text) ∧
    ((∃ t ∈ tokens o text, t.kind = .unknown) → ∃ err, parseWithin l o text = .error err) := by
  refine ⟨Parser.exists_govern, fun e h => ⟨fun t => known_of_parseWithin h,
    squeeze_bare_parseWithin h, ?_, fun c => not_mem_of_parseWithin h⟩, ?_⟩
  · intro before c after htext
    rcases token_of_split h htext with hb | hp | ⟨earlier, t, later, start, rest, hts, htext, hs⟩
    · exact .inl hb
    · exact .inr (.inl hp)
    · have hk := known_of_parseWithin h (t := t) (by rw [hts]; simp)
      exact .inr (.inr ⟨earlier, t, later, start, rest, hts, hk, htext, hs⟩)
  · rintro ⟨t, ht, hk⟩
    cases h : parseWithin l o text with
    | error err => exact ⟨err, rfl⟩
    | ok e => exact absurd hk (known_of_parseWithin h ht)

/-- One dollar sign inside an argument undoes a formula that has a tree without it. -/
theorem nothing_is_passed_over_in_arguments :
    let o : Options := {
      variableNames := .ofTexts ["x", "y"]
      functions := .ofList [⟨.of "f" 0 2, none⟩] }
    (∃ e, parse o "f(x, [y])" = .ok e ∧
      ∀ t ∈ tokens o "f(x, [y])".toList, t.kind ≠ .unknown) ∧
      ∃ err, parse o "f(x, [y$])" = .error err := by
  intro o
  have hok : (parse o "f(x, [y])").isOk = true := by decide +kernel
  have hunknown : ⟨.unknown, ['$']⟩ ∈ tokens o "f(x, [y$])".toList := by decide +kernel
  constructor
  · cases h : parse o "f(x, [y])" with
    | error => rw [h] at hok; cases hok
    | ok e => exact ⟨e, rfl, ((nothing_is_passed_over o Parser.limits _).2.1 e h).1⟩
  · exact (nothing_is_passed_over o Parser.limits _).2.2 ⟨_, hunknown, rfl⟩

end Formula
