import Formula.Declaration
import Formula.Options
import Formula.Text.Blank
import Formula.Proofs.Outcome
import Formula.Proofs.Tokens

/-!
# Declarations that were checked

What is known of the declared names and ranges once the check has accepted them,
and of the characters in the words of the vocabulary that they lead to.
-/

namespace Formula

structure Declared (o : Options) : Prop where
  strays_eq : o.variableNames.strays = []
  isValid_variable : ∀ name ∈ o.variableNames.texts, Name.isValid .variable name = true
  isValid_function : ∀ d ∈ o.functions.definitions, ∃ name, d.signature.name = .text name ∧
    Name.isValid .function name = true ∧ name ∉ o.variableNames.texts
  hasRange : ∀ d ∈ o.functions.definitions, d.signature.hasRange? = some true

theorem Name.check_eq_ok {role : Name.Role} {d : Datum} :
    Name.check role d = .ok u ↔ ∃ name, d = .text name ∧ Name.isValid role name = true := by
  unfold Name.check
  split
  · rename_i h
    refine ⟨fun _ => ?_, fun _ => rfl⟩
    cases d with
    | text name => exact ⟨name, rfl, h⟩
    | _ => cases h
  · rename_i h
    refine ⟨nofun, ?_⟩
    rintro ⟨name, rfl, hvalid⟩
    exact absurd hvalid h

theorem Signature.check_eq_ok {variableNames : OrderedSet String} {s : Signature} :
    s.check variableNames = .ok u ↔
      (∃ name, s.name = .text name ∧ Name.isValid .function name = true ∧ name ∉ variableNames) ∧
        s.hasRange? = some true := by
  simp only [Signature.check, bind_eq_ok, Name.check_eq_ok]
  constructor
  · rintro ⟨_, ⟨name, hname, hvalid⟩, h⟩
    rw [hname] at h
    cases hr : s.hasRange? with
    | none => simp [hr] at h
    | some range =>
      cases range with
      | false => simp [hr] at h
      | true =>
        refine ⟨⟨name, hname, hvalid, fun hm => ?_⟩, rfl⟩
        simp [hr, hm, Datum.text?] at h
  · rintro ⟨⟨name, hname, hvalid, hm⟩, hr⟩
    refine ⟨(), ⟨name, hname, hvalid⟩, ?_⟩
    rw [hr, hname]
    simp [Datum.text?, hm, pure, Except.pure]

theorem checkDeclarations_eq_ok_iff {variableNames : NameSet} {functions : List Signature} :
    checkDeclarations variableNames functions = .ok () ↔
      variableNames.strays = [] ∧
        (∀ name ∈ variableNames.texts, Name.isValid .variable name = true) ∧
        ∀ s ∈ functions, (∃ name, s.name = .text name ∧ Name.isValid .function name = true ∧
          name ∉ variableNames.texts) ∧ s.hasRange? = some true := by
  simp only [checkDeclarations, bind_eq_ok, forM_eq_ok, Name.check_eq_ok, Signature.check_eq_ok]
  constructor
  · rintro ⟨_, hs, _, hv, hf⟩
    refine ⟨List.eq_nil_iff_forall_not_mem.mpr fun n hn => ?_, fun name hn => ?_, hf⟩
    · obtain ⟨_, h, -⟩ := hs n hn
      cases h
    · obtain ⟨_, h, hvalid⟩ := hv name hn
      cases h
      exact hvalid
  · rintro ⟨hs, hv, hf⟩
    refine ⟨(), ?_, (), fun name hn => ⟨name, rfl, hv name hn⟩, hf⟩
    simp [hs]

theorem checkDeclarations_eq_ok {o : Options} :
    checkDeclarations o.variableNames o.functions.signatures = .ok () ↔ Declared o := by
  rw [checkDeclarations_eq_ok_iff]
  constructor
  · rintro ⟨hs, hv, hf⟩
    refine ⟨hs, hv, fun d hd => ?_, fun d hd => ?_⟩
    · exact (hf _ (List.mem_map_of_mem hd)).1
    · exact (hf _ (List.mem_map_of_mem hd)).2
  · intro h
    refine ⟨h.strays_eq, h.isValid_variable, fun s hs => ?_⟩
    obtain ⟨d, hd, rfl⟩ := List.mem_map.mp hs
    exact ⟨h.isValid_function d hd, h.hasRange d hd⟩

theorem isAtom_of_less? {d e : Datum} (h : d.less? e = some b) : d.isAtom = true := by
  cases d <;> cases e <;> first | rfl | cases h

theorem Declared.isAtomic {o : Options} (h : Declared o) (hd : d ∈ o.functions.definitions) :
    d.signature.isAtomic = true := by
  obtain ⟨name, hname, -, -⟩ := h.isValid_function d hd
  have hrange := h.hasRange d hd
  simp only [Signature.hasRange?, Option.bind_eq_bind, Option.bind_eq_some_iff] at hrange
  obtain ⟨negative, hleast, hmost⟩ := hrange
  have hmost : d.signature.most.isAtom = true := by
    cases negative with
    | true => cases hmost
    | false =>
      obtain ⟨_, hmost, -⟩ := Option.bind_eq_some_iff.mp hmost
      exact isAtom_of_less? hmost
  rw [Signature.isAtomic, hname, isAtom_of_less? hleast, hmost]
  rfl

-- ---------------------------------------------------------------------------
-- Characters of words
-- ---------------------------------------------------------------------------

namespace Name

def isWordChar (c : Char) : Bool := isBody c || isApostrophe c || c == '√'

/-- A text that can be a word: it holds characters of names only, and does not start
like a number. -/
def isWord (text : List Char) : Bool :=
  text.all isWordChar && text.head?.any fun c => !Text.isDigit c && c != '.'

theorem trimEnd_append (p : Char → Bool) (text : List Char) :
    trimEnd p text ++ (text.reverse.takeWhile p).reverse = text := by
  rw [trimEnd, ← List.reverse_append, List.takeWhile_append_dropWhile, List.reverse_reverse]

theorem isBlank_of_isWordChar (h : isWordChar c = true) : Text.isBlank c = false := by
  simp only [isWordChar, isBody, isStart, isLetter, isApostrophe, Text.isDigit, Bool.or_eq_true,
    Bool.and_eq_true, decide_eq_true_eq, beq_iff_eq, Char.le_def, UInt32.le_iff_toNat_le,
    ← Char.toNat_inj] at h
  simp at h
  simp [Text.isBlank, Text.blankRanges]
  omega

theorem isDigit_of_isStart (h : isStart c = true) : Text.isDigit c = false := by
  simp only [isStart, isLetter, Bool.or_eq_true, Bool.and_eq_true, decide_eq_true_eq, beq_iff_eq,
    Char.le_def, UInt32.le_iff_toNat_le, ← Char.toNat_inj] at h
  simp at h
  simp [Text.isDigit, Char.le_def, UInt32.le_iff_toNat_le]
  omega

theorem not_isWordChar (h : c ∈ ['(', ')', '[', ']', ',', '=', '<', '>', '+', '-', '^', '/', '*']) :
    isWordChar c = false := by
  simp only [List.mem_cons, List.not_mem_nil, or_false] at h
  rcases h with rfl | rfl | rfl | rfl | rfl | rfl | rfl | rfl | rfl | rfl | rfl | rfl | rfl <;> rfl

theorem mark_of_isWordChar (h : isWordChar c = true) : Bracket.mark c = .plain ∧ c ≠ ',' := by
  have hnot : ∀ d ∈ ['(', ')', '[', ']', ','], c ≠ d := by
    rintro d hd rfl
    rw [not_isWordChar (List.mem_append_left _ hd)] at h
    cases h
  refine ⟨?_, hnot ',' (by simp)⟩
  unfold Bracket.mark
  split
  · exact absurd rfl (hnot '(' (by simp))
  · exact absurd rfl (hnot '[' (by simp))
  · exact absurd rfl (hnot ')' (by simp))
  · exact absurd rfl (hnot ']' (by simp))
  · rfl

theorem isWordChar_of_isDigit (h : Text.isDigit c = true) : isWordChar c = true := by
  simp [isWordChar, isBody, h]

theorem ne_nil_of_isWord (h : isWord text = true) : text ≠ [] := by
  rintro rfl
  cases h

theorem isWordChar_of_isWord (h : isWord text = true) (hc : c ∈ text) : isWordChar c = true :=
  List.all_eq_true.mp (Bool.and_eq_true_iff.mp h).1 c hc

theorem isWord_of_isIdentifier (h : isIdentifier text = true) : isWord text = true := by
  have htext := trimEnd_append isApostrophe text
  unfold isIdentifier at h
  split at h
  · cases h
  rename_i c body hbody
  simp only [Bool.and_eq_true, List.all_eq_true] at h
  obtain ⟨⟨hc, hb⟩, -⟩ := h
  rw [hbody] at htext
  have hdot : c ≠ '.' := fun h => by rw [h] at hc; revert hc; decide
  rw [← htext, isWord, List.cons_append, List.all_cons, List.all_append]
  simp only [Bool.and_eq_true, List.all_eq_true, List.head?_cons, Option.any_some,
    isDigit_of_isStart hc, bne_iff_ne, ne_eq, hdot, Bool.not_false, not_false_eq_true, and_true]
  refine ⟨by simp [isWordChar, isBody, hc], fun d hd => by simp [isWordChar, hb d hd],
    fun d hd => ?_⟩
  have hd := List.all_eq_true.mp List.all_takeWhile d (List.mem_reverse.mp hd)
  simp [isWordChar, hd]

theorem isWord_of_isValid {role : Role} {name : String} (h : isValid role name = true) :
    isWord name.toList = true :=
  isWord_of_isIdentifier (Bool.and_eq_true_iff.mp h).1

theorem isWord_builtin (h : name ∈ Builtin.constantNames ++ Builtin.functionNames) :
    isWord name.toList = true := by
  revert name
  decide

end Name

-- ---------------------------------------------------------------------------
-- The vocabulary
-- ---------------------------------------------------------------------------

namespace Options

variable {o : Options}

/-- The words that a formula may contain under the options. -/
def vocabulary (o : Options) : Vocabulary :=
  .ofNames o.variableNames.texts.toList o.functions.textNames

theorem text?_eq_some {d : Datum} : d.text? = some name ↔ d = .text name := by
  cases d <;> simp [Datum.text?]

theorem mem_textNames {t : FunctionTable} :
    name ∈ t.textNames ↔ ∃ d ∈ t.definitions, d.signature.name = .text name := by
  simp [FunctionTable.textNames, FunctionTable.names, FunctionTable.signatures, text?_eq_some]

theorem byName?_eq_some {t : FunctionTable} (h : t.byName? (.text name) = some d) :
    d ∈ t.definitions ∧ d.signature.name = .text name := by
  refine ⟨List.mem_of_find?_eq_some h, ?_⟩
  have hsame := List.find?_some h
  cases hn : d.signature.name with
  | text n => simpa [hn] using hsame
  | _ => simp [hn, Datum.same] at hsame

theorem mem_vocabulary : Word.ofString name ∈ o.vocabulary.words ↔
    name ∈ o.variableNames.texts ∨
      (∃ d ∈ o.functions.definitions, d.signature.name = .text name) ∨
      name ∈ Builtin.constantNames ∨ name ∈ Builtin.functionNames := by
  rw [vocabulary, Vocabulary.mem_words_ofNames]
  simp only [List.mem_append, mem_textNames, OrderedSet.mem_toList, or_assoc]

theorem not_mem_vocabulary (h : Word.ofString name ∉ o.vocabulary.words) :
    name ∉ o.variableNames.texts ∧ o.functions.byName? (.text name) = none ∧
      name ∉ Builtin.constantNames ∧ name ∉ Builtin.functionNames := by
  have hnot := mt mem_vocabulary.mpr h
  rw [not_or, not_or, not_or] at hnot
  obtain ⟨hv, hf, hc, hb⟩ := hnot
  refine ⟨hv, Option.eq_none_iff_forall_ne_some.mpr fun d hd => ?_, hc, hb⟩
  exact hf ⟨d, byName?_eq_some hd⟩

end Options

theorem Declared.isWord (h : Declared o) (hw : w ∈ o.vocabulary.words) :
    Name.isWord w.letters = true := by
  obtain ⟨name, rfl⟩ : ∃ name, w = Word.ofString name :=
    ⟨String.ofList w.letters, by rw [Word.ofString, String.toList_ofList]⟩
  rcases Options.mem_vocabulary.mp hw with hv | ⟨d, hd, hname⟩ | hb
  · exact Name.isWord_of_isValid (h.isValid_variable name hv)
  · obtain ⟨name', hname', hvalid, -⟩ := h.isValid_function d hd
    rw [hname'] at hname
    cases hname
    exact Name.isWord_of_isValid hvalid
  · exact Name.isWord_builtin (List.mem_append.mpr hb)

end Formula
