import Formula.Proofs.Occurrences
import Formula.Proofs.Shapes

/-!
# What a name is

The check of a declared name, the scan for undeclared names and the reading of a formula go by one
idea of a name, whatever other names are declared, be they its beginnings or parts of it.
-/

namespace Formula

namespace Name

variable {text : List Char} {name : String}

/-- A letter or an underscore, then letters, digits, underscores and periods with no period at
the end, then apostrophes. -/
def HasForm (text : List Char) : Prop :=
  ∃ c body quotes, text = c :: (body ++ quotes) ∧
    (isLetter c = true ∨ c = '_') ∧
    (∀ d ∈ body, isLetter d = true ∨ Text.isDigit d = true ∨ d = '_' ∨ d = '.') ∧
    body.getLast? ≠ some '.' ∧
    ∀ d ∈ quotes, d = '\''

theorem hasForm_iff : HasForm text ↔ isIdentifier text = true := by
  have hbody (d : Char) : isBody d = true ↔
      isLetter d = true ∨ Text.isDigit d = true ∨ d = '_' ∨ d = '.' := by
    simp [isBody, isStart, or_assoc, or_left_comm]
  simp only [isIdentifier_iff, HasForm, hbody, isStart, isApostrophe, Bool.or_eq_true, beq_iff_eq]

theorem scan?_of_isIdentifier (h : isIdentifier text = true) : scan? text = some (text, []) := by
  cases hscan : scan? text with
  | none => exact absurd (List.prefix_refl _) (scan?_eq_none hscan h)
  | some found =>
    obtain ⟨name, after⟩ := found
    have hlength := length_le_of_scan? hscan h (List.prefix_refl _)
    obtain rfl := append_of_scan? hscan
    rw [List.length_append] at hlength
    obtain rfl : after = [] := List.eq_nil_of_length_eq_zero (by omega)
    rw [List.append_nil]

theorem identifiers_eq_singleton :
    identifiers name.toList = [name] ↔ isIdentifier name.toList = true := by
  constructor
  · intro h
    exact isIdentifier_of_mem_identifiers (h ▸ List.mem_singleton_self name)
  · intro h
    rw [identifiers]
    split
    · rename_i found after hscan
      rw [scan?_of_isIdentifier h] at hscan
      cases hscan
      rw [String.ofList_toList, identifiers]
      rfl
    · rename_i hscan
      rw [scan?_of_isIdentifier h] at hscan
      cases hscan

-- ---------------------------------------------------------------------------
-- Declared names
-- ---------------------------------------------------------------------------

def declared (variableNames : NameSet) (functions : List Signature) : List Datum :=
  variableNames.texts.toList.map .text ++ variableNames.strays.map .scalar ++ functions.map (·.name)

def vocabulary (variableNames : NameSet) (functions : List Signature) : Vocabulary :=
  .ofNames variableNames.texts.toList ((functions.map (·.name)).filterMap (·.text?))

variable {variableNames : NameSet} {functions : List Signature}

theorem mem_vocabulary (h : .text name ∈ declared variableNames functions) :
    ⟨name.toList⟩ ∈ (vocabulary variableNames functions).words := by
  refine Vocabulary.mem_words_ofNames.mpr ?_
  simp only [declared, List.mem_append, List.mem_map] at h
  rcases h with (⟨_, hname, ⟨⟩⟩ | ⟨_, -, ⟨⟩⟩) | ⟨s, hs, hname⟩
  · simp [hname]
  · simp only [List.mem_append, List.mem_filterMap, List.mem_map, Options.text?_eq_some]
    exact .inl (.inl (.inr ⟨_, ⟨s, hs, rfl⟩, hname⟩))

theorem isValid_of_mem_declared (hcheck : checkDeclarations variableNames functions = .ok ())
    (h : d ∈ declared variableNames functions) :
    ∃ name, d = .text name ∧ isValid .function name = true := by
  obtain ⟨hstrays, hvariables, hfunctions⟩ := checkDeclarations_eq_ok_iff.mp hcheck
  simp only [declared, hstrays, List.map_nil, List.append_nil, List.mem_append, List.mem_map] at h
  rcases h with ⟨name, hname, rfl⟩ | ⟨s, hs, rfl⟩
  · exact ⟨name, rfl, isValid_function.mpr (isValid_variable.mp (hvariables name hname)).1⟩
  · obtain ⟨⟨name, hname, hvalid, -⟩, -⟩ := hfunctions s hs
    exact ⟨name, hname, hvalid⟩

/-- A text is valid as the name of a function just when it has the form of a name, and just when
the scan for names finds all of it and nothing else. Where declarations are accepted, each declared
name is read as one word under them. -/
theorem recognisers_agree :
    (∀ name : String,
      (isValid .function name = true ↔ HasForm name.toList) ∧
        (isValid .function name = true ↔ identifiers name.toList = [name])) ∧
      ∀ (variableNames : NameSet) (functions : List Signature),
        checkDeclarations variableNames functions = .ok () →
          ∀ d ∈ declared variableNames functions, ∃ name, d = .text name ∧
            Token.read (vocabulary variableNames functions) name.toList =
              [⟨.word, name.toList⟩] := by
  refine ⟨fun name => ⟨?_, ?_⟩, fun variableNames functions hcheck d hd => ?_⟩
  · rw [isValid_function, hasForm_iff]
  · rw [isValid_function, identifiers_eq_singleton]
  · obtain ⟨name, rfl, hvalid⟩ := isValid_of_mem_declared hcheck hd
    exact ⟨name, rfl, Token.read_word (mem_vocabulary hd) (isWord_of_isValid hvalid)⟩

theorem recognisers_agree_on_beginnings :
    let variableNames : NameSet := .ofTexts ["x", "x_1"]
    let functions : List Signature := [.of "x_1.y" 1 2, .of "_x" 0 0, .of "sin.x'" 1 1]
    (isValid .function "sin.x'" = true ∧ HasForm "sin.x'".toList ∧
        identifiers "sin.x'".toList = ["sin.x'"]) ∧
      (isValid .function "x." = false ∧ ¬ HasForm "x.".toList ∧ identifiers "x.".toList = ["x"]) ∧
      checkDeclarations variableNames functions = .ok () ∧
      declared variableNames functions =
        [.text "x", .text "x_1", .text "x_1.y", .text "_x", .text "sin.x'"] ∧
      Token.read (vocabulary variableNames functions) "x_1.y".toList =
        [⟨.word, "x_1.y".toList⟩] := by
  intro variableNames functions
  have hcheck : checkDeclarations variableNames functions = .ok () := rfl
  have hdeclared : declared variableNames functions =
      [.text "x", .text "x_1", .text "x_1.y", .text "_x", .text "sin.x'"] := rfl
  obtain ⟨hnames, hread⟩ := recognisers_agree
  have hvalid : isValid .function "sin.x'" = true := by decide
  have hinvalid : ¬ isValid .function "x." = true := by decide
  refine ⟨⟨hvalid, (hnames _).1.mp hvalid, (hnames _).2.mp hvalid⟩,
    ⟨by simpa using hinvalid, mt (hnames _).1.mpr hinvalid, by cbv⟩, hcheck, hdeclared, ?_⟩
  obtain ⟨_, ⟨⟩, hword⟩ :=
    hread variableNames functions hcheck (.text "x_1.y") (by simp [hdeclared])
  exact hword

end Name

end Formula
