import Formula.Name.Detection
import Formula.Proofs.Declared

/-!
# Names that are found can be declared

Every name that is found in a text is an identifier, so a found function can be declared. A found
variable is neither a built-in function nor one of the found functions; it can be declared unless
it starts with an underscore, which only a function may.
-/

namespace Formula

namespace Name

theorem isApostrophe_of_isBody (h : isBody c = true) : isApostrophe c = false := by
  by_contra hq
  simp only [isApostrophe, Bool.not_eq_false, beq_iff_eq] at hq
  subst hq
  revert h
  decide

theorem trimEnd_append_of_all {p : Char → Bool} (ha : ∀ c ∈ a, p c = false)
    (hb : ∀ c ∈ b, p c = true) : trimEnd p (a ++ b) = a := by
  have hkept : a.reverse.dropWhile p = a.reverse := by
    cases h : a.reverse with
    | nil => rfl
    | cons c rest =>
      have hc : c ∈ a := List.mem_reverse.mp (h ▸ List.mem_cons_self)
      simp [ha c hc]
  rw [trimEnd, List.reverse_append, List.dropWhile_append_of_pos (by simpa using hb), hkept,
    List.reverse_reverse]

theorem eq_false_of_getLast?_trimEnd {p : Char → Bool} (h : (trimEnd p text).getLast? = some c) :
    p c = false := by
  have hhead := List.head?_dropWhile_not p text.reverse
  rw [trimEnd, List.getLast?_reverse] at h
  rw [h] at hhead
  exact hhead

theorem mem_of_mem_trimEnd {p : Char → Bool} (h : c ∈ trimEnd p text) : c ∈ text := by
  rw [← trimEnd_append p text]
  exact List.mem_append_left _ h

theorem isIdentifier_of_scan? (h : scan? text = some (name, after)) : isIdentifier name = true := by
  cases text with
  | nil => cases h
  | cons c rest =>
    simp only [scan?] at h
    split at h
    case isFalse => cases h
    rename_i hstart
    cases h
    have hbody : ∀ d ∈ trimEnd (· == '.') (rest.takeWhile isBody), isBody d = true :=
      fun d hd => List.all_eq_true.mp List.all_takeWhile d (mem_of_mem_trimEnd hd)
    generalize hrun : trimEnd (· == '.') (rest.takeWhile isBody) = body at hbody ⊢
    have hlast : body.getLast? ≠ some '.' := by
      intro hdot
      have hperiod := eq_false_of_getLast?_trimEnd (hrun ▸ hdot)
      cases hperiod
    have hstem : ∀ d ∈ c :: body, isApostrophe d = false := by
      refine List.forall_mem_cons.mpr ⟨?_, fun d hd => isApostrophe_of_isBody (hbody d hd)⟩
      exact isApostrophe_of_isBody (by simp [isBody, hstart])
    have htrim := trimEnd_append_of_all hstem
      (b := (rest.drop body.length).takeWhile isApostrophe) fun d hd =>
        List.all_eq_true.mp List.all_takeWhile d hd
    rw [isIdentifier, ← List.cons_append, htrim]
    simp [hstart, hlast]
    exact hbody

theorem isIdentifier_of_mem_identifiers (h : name ∈ identifiers text) :
    isIdentifier name.toList = true := by
  fun_induction identifiers text with
  | case1 text found after hscan ih =>
    rcases List.mem_cons.mp h with rfl | h
    · simpa using isIdentifier_of_scan? hscan
    · exact ih h
  | case2 => cases h
  | case3 c rest hscan ih => exact ih h

theorem isIdentifier_of_mem_calls (h : name ∈ calls text) : isIdentifier name.toList = true := by
  fun_induction calls text with
  | case1 text found after hscan ih =>
    rcases List.mem_cons.mp h with rfl | h
    · simpa using isIdentifier_of_scan? hscan
    · exact ih h
  | case2 => cases h
  | case3 c rest hscan ih => exact ih h

-- ---------------------------------------------------------------------------
-- What is found, and what can be declared
-- ---------------------------------------------------------------------------

theorem isValid_variable : isValid .variable name = true ↔ isIdentifier name.toList = true ∧
    name.toList.head? ≠ some '_' ∧ name ∉ Builtin.functionNames := by
  simp [isValid]

theorem isValid_function : isValid .function name = true ↔ isIdentifier name.toList = true := by
  simp [isValid]

def Undeclared.signatures (found : Undeclared) : List Signature :=
  found.functions.toList.map fun name => .of name 0 1

variable {hideBuiltins : Bool} {text : List Char} {name : String}

theorem mem_functions :
    name ∈ (undeclared hideBuiltins text).functions ↔ name ∈ calls text := by
  simp [undeclared, calledNames]

theorem mem_variableNames : name ∈ (undeclared hideBuiltins text).variableNames ↔
    name ∈ identifiers text ∧ name ∉ Builtin.functionNames ∧
      ¬(hideBuiltins = true ∧ name ∈ Builtin.constantNames) ∧
      name ∉ (undeclared hideBuiltins text).functions := by
  simp [undeclared, and_assoc, imp_iff_not_or]

theorem isValid_of_mem_functions (h : name ∈ (undeclared hideBuiltins text).functions) :
    isValid .function name = true :=
  isValid_function.mpr (isIdentifier_of_mem_calls (mem_functions.mp h))

theorem isValid_iff_of_mem_variableNames (h : name ∈ (undeclared hideBuiltins text).variableNames) :
    isValid .variable name = true ↔ name.toList.head? ≠ some '_' := by
  obtain ⟨hfound, hbuiltin, -, -⟩ := mem_variableNames.mp h
  simp [isValid_variable, isIdentifier_of_mem_identifiers hfound, hbuiltin]

theorem check_signatures : (undeclared hideBuiltins text).signatures.forM
    (Signature.check (undeclared hideBuiltins text).variableNames) = .ok () := by
  refine forM_eq_ok.mpr fun s hs => ?_
  obtain ⟨name, hname, rfl⟩ := List.mem_map.mp hs
  refine Signature.check_eq_ok.mpr ⟨⟨name, rfl, isValid_of_mem_functions hname, ?_⟩, rfl⟩
  intro hvariable
  exact (mem_variableNames.mp hvariable).2.2.2 hname

theorem checkDeclarations_undeclared :
    checkDeclarations ⟨(undeclared hideBuiltins text).variableNames, []⟩
        (undeclared hideBuiltins text).signatures =
      (undeclared hideBuiltins text).variableNames.toList.forM
        fun name => check .variable (.text name) := by
  rw [checkDeclarations, check_signatures]
  exact bind_pure (m := Except ParseError) _

/-- Every found function can be declared. A found variable has the form of a name, and it can be
declared just when it does not start with an underscore; so all that is found can be declared
together just when no found variable starts with one, and otherwise such a variable is named. -/
theorem found_names_can_be_declared (hideBuiltins : Bool) (text : List Char) :
    let found := undeclared hideBuiltins text
    let outcome := checkDeclarations ⟨found.variableNames, []⟩ found.signatures
    (∀ name ∈ found.functions, isValid .function name = true) ∧
      (∀ name ∈ found.variableNames, isValid .function name = true ∧
        (isValid .variable name = true ↔ name.toList.head? ≠ some '_')) ∧
      (∀ name ∈ found.variableNames, name ∉ found.functions) ∧
      (outcome = .ok () ↔ ∀ name ∈ found.variableNames, name.toList.head? ≠ some '_') ∧
      ∀ e, outcome = .error e → ∃ name ∈ found.variableNames,
        name.toList.head? = some '_' ∧ e = .invalidVariable (.text name) := by
  simp only [checkDeclarations_undeclared]
  refine ⟨fun name h => isValid_of_mem_functions h, fun name h => ⟨?_, ?_⟩, fun name h => ?_,
    ?_, fun e he => ?_⟩
  · exact isValid_function.mpr (isIdentifier_of_mem_identifiers (mem_variableNames.mp h).1)
  · exact isValid_iff_of_mem_variableNames h
  · exact (mem_variableNames.mp h).2.2.2
  · simp only [forM_eq_ok, check_eq_ok, Datum.text.injEq, exists_eq_left', OrderedSet.mem_toList]
    exact forall₂_congr fun name h => isValid_iff_of_mem_variableNames h
  · obtain ⟨name, hname, he⟩ := exists_of_forM_eq_error he
    unfold check at he
    split at he
    case isTrue => cases he
    case isFalse hrefused =>
      cases he
      refine ⟨name, hname, ?_, rfl⟩
      by_contra hstart
      exact hrefused ((isValid_iff_of_mem_variableNames hname).mpr hstart)

/-- A variable that starts with an underscore is found, and it cannot be declared. -/
theorem underscored_variable_refused :
    (undeclared false "_x".toList).variableNames.toList = ["_x"] ∧
      isValid .variable "_x" = false ∧
      checkDeclarations ⟨(undeclared false "_x".toList).variableNames, []⟩
        (undeclared false "_x".toList).signatures = .error (.invalidVariable (.text "_x")) := by
  have hidentifiers : identifiers "_x".toList = ["_x"] := by cbv
  have hcalls : calls "_x".toList = [] := by cbv
  have hfound : undeclared false "_x".toList = ⟨.ofList ["_x"], .ofList []⟩ := by
    rw [undeclared, calledNames, hcalls, hidentifiers]
    rfl
  rw [hfound]
  exact ⟨rfl, by decide, rfl⟩

end Name

end Formula
