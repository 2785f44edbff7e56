import Formula.Proofs.OperatorGrammar

/-!
# The passes together

A reduction puts leaves in the place of names, makes the calls, and reads what is
left by the grammar of operators. What every rule of that grammar keeps holds of
every list it derives a tree from.
-/

namespace Formula.Part

variable {o : Options} {P : List Part → Expr → Prop}

-- ---------------------------------------------------------------------------
-- Induction over the grammar
-- ---------------------------------------------------------------------------

/-- `P` is kept by every rule of the grammar. -/
structure Kept (o : Options) (P : List Part → Expr → Prop) : Prop where
  tree : e.isNumeric = true → P [.tree e] e
  negated : P ps e → P (.pending "-" :: ps) (.unary .negate e)
  power : P ls l → P rs r → P (ls ++ .pending "^" :: rs) (raise l r)
  beside : P ls l → P rs r → P (ls ++ rs) (.binary .multiply l r)
  times : P ls l → P rs r → P (ls ++ .pending "*" :: rs) (.binary .multiply l r)
  divided : P ls l → P rs r → P (ls ++ .pending "/" :: rs) (.binary .divide l r)
  plus : P ls l → P rs r → P (ls ++ .pending "+" :: rs) (.binary .add l r)
  minus : P ls l → P rs r → P (ls ++ .pending "-" :: rs) (difference o l r)

namespace Kept

theorem node (hP : Kept o P) (h : Node ps e) : P ps e := by
  obtain ⟨he⟩ := h
  exact hP.tree he

theorem factor (hP : Kept o P) (h : Factor ps e) : P ps e := by
  cases h with
  | node h => exact hP.node h
  | negated h => exact hP.negated (hP.node h)

theorem chain (hP : Kept o P) (h : Power ps e) : P ps e := by
  induction h with
  | factor h => exact hP.factor h
  | power _ hr ih => exact hP.power ih (hP.factor hr)

theorem plainPower (hP : Kept o P) (h : PlainPower ps e) : P ps e := by
  induction h with
  | node h => exact hP.node h
  | power _ hr ih => exact hP.power ih (hP.factor hr)

theorem run (hP : Kept o P) (h : Run o ps e) : P ps e := by
  induction h with
  | power h => exact hP.chain h
  | times _ _ hr ih => exact hP.beside ih (hP.plainPower hr)

theorem product (hP : Kept o P) (h : Product o ps e) : P ps e := by
  induction h with
  | run h => exact hP.run h
  | times _ hr ih => exact hP.times ih (hP.run hr)
  | divided _ hr ih => exact hP.divided ih (hP.run hr)

theorem sum (hP : Kept o P) (h : Sum o ps e) : P ps e := by
  induction h with
  | product h => exact hP.product h
  | plus _ hr ih => exact hP.plus ih (hP.product hr)
  | minus _ hr ih => exact hP.minus ih (hP.product hr)

end Kept

-- ---------------------------------------------------------------------------
-- Names and calls before it
-- ---------------------------------------------------------------------------

theorem applyCalls_eq_ok {functions : FunctionTable} : applyCalls functions ps = .ok out ↔
    ∃ called, makeCalls functions ps = .ok called ∧ called.filter (!·.isEmptyList) = out := by
  simp only [applyCalls, bind_eq_ok, pure_eq_ok]

theorem reduce_eq_ok : reduce o ps = .ok e ↔
    ∃ out, applyCalls o.functions (nameLeaves o.variableNames.texts ps) = .ok out ∧
      Sum o out e := by
  simp only [reduce, bind_eq_ok, ← operators_eq_ok]

theorem constant?_eq_some (h : Builtin.constant? name = some e) :
    name ∈ Builtin.constantNames ∧ (e = .euler ∨ e = .pi) := by
  obtain ⟨before, after, heq, -⟩ := List.lookup_eq_some_iff.mp h
  have hmem : (name, e) ∈ Builtin.constants := by simp [heq]
  refine ⟨List.mem_map_of_mem hmem, ?_⟩
  simp only [Builtin.constants, List.mem_cons, Prod.mk.injEq, List.not_mem_nil, or_false] at hmem
  rcases hmem with ⟨-, rfl⟩ | ⟨-, rfl⟩ | ⟨-, rfl⟩
  · exact .inl rfl
  · exact .inr rfl
  · exact .inr rfl

theorem constant?_eq_none : Builtin.constant? name = none ↔ name ∉ Builtin.constantNames := by
  rw [← Option.not_isSome_iff_eq_none, Builtin.constant?, List.lookup_isSome_iff]
  simp [Builtin.constantNames]

theorem function?_eq_none : Builtin.function? name = none ↔ name ∉ Builtin.functionNames := by
  rw [← Option.not_isSome_iff_eq_none, Builtin.function?, List.lookup_isSome_iff]
  simp [Builtin.functionNames]

theorem nameLeaf_pending (vars : OrderedSet String) (text : String) :
    (text ∈ vars ∧ nameLeaf vars (.pending text) = .tree (.named text)) ∨
      text ∉ vars ∧ (∃ e, Builtin.constant? text = some e ∧
        nameLeaf vars (.pending text) = .tree e) ∨
      text ∉ vars ∧ Builtin.constant? text = none ∧
        nameLeaf vars (.pending text) = .pending text := by
  unfold nameLeaf
  by_cases h : text ∈ vars
  · exact .inl ⟨h, by simp [h]⟩
  · cases hc : Builtin.constant? text with
    | some e => exact .inr (.inl ⟨h, e, rfl, by simp [h, hc]⟩)
    | none => exact .inr (.inr ⟨h, rfl, by simp [h, hc]⟩)

theorem nameLeaf_eq_self {vars : OrderedSet String} (hv : text ∉ vars)
    (hc : text ∉ Builtin.constantNames) : nameLeaf vars (.pending text) = .pending text := by
  rcases nameLeaf_pending vars text with ⟨h, -⟩ | ⟨-, e, h, -⟩ | ⟨-, -, h⟩
  · exact absurd h hv
  · rw [constant?_eq_none.mpr hc] at h
    cases h
  · exact h

end Formula.Part
