import Formula.Proofs.Mentions
import Formula.Proofs.RoundTrip

/-!
# Which functions can be called

A declared function can be called with every number of arguments that it accepts, also where
it has the name of a built-in function. Only the names of constants are out of its reach: they
become leaves before any call is made, so no formula calls a function of such a name.
-/

namespace Formula

variable {o : Options} {d : Definition} {name : String}

-- ---------------------------------------------------------------------------
-- Calls whose arguments are ones
-- ---------------------------------------------------------------------------

namespace Source

def one : Source := .literal ['1'] []

def calledWithOnes (d : Definition) (count : Nat) : Source :=
  .declared d .round (List.replicate count one)

theorem one_valid : one.Valid o := ⟨List.cons_ne_nil _ _, List.forall_mem_singleton.mpr rfl⟩

theorem calledWithOnes_valid {count : Nat} (hd : d ∈ o.functions.definitions)
    (haccepts : d.signature.accepts count = some true) : (calledWithOnes d count).Valid o := by
  refine ⟨hd, ?_, validAll_iff.mpr fun t ht => ?_⟩
  · rwa [List.length_replicate]
  · obtain rfl := List.eq_of_mem_replicate ht
    exact one_valid

theorem tree_calledWithOnes (d : Definition) (count : Nat) :
    (calledWithOnes d count).tree o = .call d (List.replicate count (.real 1.0)) := by
  have hone : one.tree o = .real 1.0 := congrArg Expr.real (by decide +kernel)
  simp [calledWithOnes, tree, trees_eq, hone]

theorem text_calledWithOnes (hname : d.signature.name = .text name) (count : Nat) :
    (calledWithOnes d count).text =
      (name ++ "(" ++ ",".intercalate (List.replicate count "1") ++ ")").toList := by
  simp [calledWithOnes, text, hname, texts_eq, one, Token.digits, Bracket.opener, Bracket.closer,
    Datum.words, String.toList_intercalate]

theorem readAt_calledWithOnes {count : Nat} (hdeclared : Declared o)
    (hdistinct : o.functions.textNames.Nodup) (hd : d ∈ o.functions.definitions)
    (hconstant : d.signature.name.words ∉ Builtin.constantNames)
    (haccepts : d.signature.accepts count = some true) (hdeep : o.isTooDeep (depth + 1) = false) :
    (Parser.mk o o.vocabulary).readAt shown (room + 2) depth (calledWithOnes d count).text =
      .ok ((calledWithOnes d count).tree o) := by
  have hhere : o.isTooDeep depth = false := Options.isTooDeep_of_le (Nat.le_succ depth) hdeep
  refine readAt_declared hdeclared hdistinct hconstant (calledWithOnes_valid hd haccepts) hhere
    fun t ht => ?_
  obtain rfl := List.eq_of_mem_replicate ht
  exact readAt_literal hdeclared one_valid hdeep

end Source

-- ---------------------------------------------------------------------------
-- Formulas
-- ---------------------------------------------------------------------------

theorem exists_word_of_mem_callees (h : parseWithin l o text = .ok t) (hd : d ∈ t.callees) :
    ∃ word ∈ words o text, isFree o word = true ∧ o.functions.byName? (.text word) = some d := by
  rw [Expr.callees_eq, mentions_parseWithin h, calls_nameMentions] at hd
  obtain ⟨word, hword, hfind⟩ := List.mem_filterMap.mp hd
  obtain ⟨hword, hfree⟩ := List.mem_filter.mp hword
  exact ⟨word, hword, hfree, hfind⟩

theorem not_constant_of_mem_callees (h : parseWithin l o text = .ok t) (hd : d ∈ t.callees)
    (hname : d.signature.name = .text name) : name ∉ Builtin.constantNames := by
  obtain ⟨word, -, hfree, hfind⟩ := exists_word_of_mem_callees h hd
  obtain ⟨-, hword⟩ := Options.byName?_eq_some hfind
  obtain rfl := Datum.text.inj (hname.symm.trans hword)
  simp only [isFree, Bool.and_eq_true, Bool.not_eq_true'] at hfree
  simpa using hfree.2

/-- A declared function is called with every number of arguments that it accepts, unless its name
is that of a constant. Then no formula calls it. -/
theorem declared_functions_are_called (o : Options) (d : Definition) (name : String)
    (hcheck : checkDeclarations o.variableNames o.functions.signatures = .ok ())
    (hdistinct : o.functions.textNames.Nodup) (hd : d ∈ o.functions.definitions)
    (hname : d.signature.name = .text name) :
    (name ∉ Builtin.constantNames → ∀ count : Nat, d.signature.accepts count = some true →
      parse o (name ++ "(" ++ ",".intercalate (List.replicate count "1") ++ ")") =
        .ok (.call d (List.replicate count (.real 1.0)))) ∧
    (name ∈ Builtin.constantNames → ∀ text t, parse o text = .ok t → d ∉ t.callees) := by
  refine ⟨fun hconstant count haccepts => ?_, fun hconstant text t h hcall => ?_⟩
  · have hwords : d.signature.name.words ∉ Builtin.constantNames := by rwa [hname]
    have hread : (Parser.mk o o.vocabulary).readWithin Parser.limits
        (Source.calledWithOnes d count).text = .ok ((Source.calledWithOnes d count).tree o) :=
      Source.readAt_calledWithOnes (checkDeclarations_eq_ok.mp hcheck) hdistinct hd hwords haccepts
        o.isTooDeep_one
    rw [Source.text_calledWithOnes hname, Source.tree_calledWithOnes] at hread
    exact parseWithin_eq_ok.mpr ⟨hcheck, hread⟩
  · exact not_constant_of_mem_callees h hcall hname hconstant

theorem declared_functions_are_called_sin :
    let d : Definition := ⟨.of "sin" 0 2, none⟩
    let d' : Definition := ⟨.of "e" 1 1, none⟩
    let o : Options := { functions := .ofList [d, d'] }
    parse o "sin(1,1)" = .ok (.call d [.real 1.0, .real 1.0]) ∧
      ∃ t, parse o "e(1)" = .ok t ∧ d' ∉ t.callees := by
  intro d d' o
  have hdefs : o.functions.definitions = [d, d'] := rfl
  have hd : d ∈ o.functions.definitions := by simp [hdefs]
  have hd' : d' ∈ o.functions.definitions := by simp [hdefs]
  obtain ⟨hcalled, -⟩ := declared_functions_are_called o d "sin" rfl (by decide) hd rfl
  obtain ⟨-, hhidden⟩ := declared_functions_are_called o d' "e" rfl (by decide) hd' rfl
  obtain ⟨t, ht⟩ := exists_of_isOk (show (parse o "e(1)").isOk = true by decide +kernel)
  exact ⟨hcalled (by decide) 2 (by decide), t, ht, hhidden (by decide) "e(1)" t ht⟩

end Formula
