import Formula.Proofs.Chains

/-!
# Equations in a row

A row of equations holds if every side is equal to the first one. It has the value of the first side
then, and none otherwise: from the first equation that does not hold there is no value on the left,
and that equals no double.
-/

namespace Formula

namespace Sides

theorem valueFrom_none (sides : List Side) :
    valueFrom none (sides.map (Relation.equals, ·)) = none := by
  induction sides with
  | nil => rfl
  | cons s sides ih => exact ih

theorem valueFrom_equals (x : Float) (sides : List Side) :
    valueFrom (some x) (sides.map (Relation.equals, ·)) =
      if sides.all (x == ·.value) then some x else none := by
  induction sides with
  | nil => rfl
  | cons s sides ih =>
    show valueFrom (if x == s.value then some x else none) _ = _
    cases hs : x == s.value with
    | true => simpa [hs] using ih
    | false => simpa [hs] using valueFrom_none sides

end Sides

/-- What is read with relations is a chain, and a row of equations compares every side of it with
the first one. If all are equal to it, the row has the value of the first side, which need not be
zero of the same sign as the others, and it is true; otherwise it has no value and is false. A side
that is not-a-number is equal to none. -/
theorem equations_compare_with_the_first (vs : Values) (fs : FunctionTable) (first : Side)
    {sides : List Side} (hne : sides ≠ []) :
    let holds := sides.all (first.value == ·.value)
    (∃ l : Parser.Limits, l.Govern) ∧
    (∀ l o text e, parseRelationsWithin l o text = .ok e → e.IsChain) ∧
    Sides.ComeTo vs fs ⟨first, sides.map (.equals, ·)⟩ (if holds then some first.value else none)
      (some (if holds then 1.0 else 0.0)) := by
  refine ⟨Parser.exists_govern, fun _ _ _ _ => isChain_of_parseRelationsWithin, ?_⟩
  obtain ⟨before, last, rfl⟩ := (List.eq_nil_or_concat' sides).resolve_left hne
  have hmeans : Sides.ComeTo vs fs ⟨first, (before ++ [last]).map (.equals, ·)⟩ _ _ :=
    Sides.comeTo (List.map_append ..)
  rw [Sides.valueFrom_equals] at hmeans
  rw [List.all_append, List.all_cons, List.all_nil, Bool.and_true]
  cases hbefore : before.all (first.value == ·.value) with
  | false =>
    rw [hbefore] at hmeans
    exact hmeans
  | true =>
    rw [hbefore] at hmeans
    exact hmeans

/-- One side is a quotient, and one a call of a function that the table gives. The row holds, and
with one more side it does not. -/
theorem equations_compare_with_the_first_called :
    let f : Definition := ⟨.of "f" 1 2, some .sum⟩
    let fs : FunctionTable := .ofList [f]
    let vs : Values := .x (.whole 2)
    let first : Side := ⟨.named "x", 2.0⟩
    let half : Side := ⟨.binary .divide (Expr.whole 4) (.named "x"), 2.0⟩
    let call : Side := ⟨.call f.erase [.named "x", Expr.whole 0], 2.0⟩
    let three : Side := ⟨Expr.whole 3, 3.0⟩
    let two : Sides := ⟨first, [half, call].map (.equals, ·)⟩
    let other : Sides := ⟨first, [half, three, call].map (.equals, ·)⟩
    (two.tree.value vs fs = .ok (some 2.0) ∧ two.tree.truth vs fs = .ok (some 1.0)) ∧
      other.tree.value vs fs = .ok none ∧ other.tree.truth vs fs = .ok (some 0.0) := by
  intro f fs vs first half call three two other
  have hhalf (k : Nat) : half.tree.number (k + 3) vs fs = .ok 2.0 := by
    have hquotient : (4.0 : Float) / 2.0 = 2.0 := by decide +kernel
    show (Except.ok (4.0 / 2.0) : Except EvalError Float) = _
    rw [hquotient]
  have hcall (k : Nat) : call.tree.number (k + 3) vs fs = .ok 2.0 := by
    have hsum : (0.0 + 2.0 + 0.0 : Float) = 2.0 := by decide +kernel
    show (Except.ok (0.0 + 2.0 + 0.0) : Except EvalError Float) = _
    rw [hsum]
  have hsides (k : Nat) (hk : 4 ≤ k) : ∀ s ∈ [first, half, three, call], s.HasValue vs fs k := by
    obtain ⟨k, rfl⟩ := Nat.exists_eq_add_of_le' hk
    simp only [List.forall_mem_cons]
    exact ⟨Side.hasValue_of_number rfl rfl, Side.hasValue_of_number rfl (hhalf k),
      Side.hasValue_of_number rfl rfl, Side.hasValue_of_number rfl (hcall k),
      List.forall_mem_nil _⟩
  have hsubset : [first, half, call] ⊆ [first, half, three, call] := by
    simp
  obtain ⟨-, -, htwo⟩ :=
    equations_compare_with_the_first vs fs first (List.cons_ne_nil half [call])
  obtain ⟨-, -, hother⟩ :=
    equations_compare_with_the_first vs fs first (List.cons_ne_nil half [three, call])
  replace htwo := htwo.enough 4 (fun k hk s hs => hsides k hk s (hsubset hs)) Expr.levels
    (by decide)
  replace hother := hother.enough 4 hsides Expr.levels (by decide)
  rw [show [half, call].all (first.value == ·.value) = true by decide +kernel] at htwo
  rw [show [half, three, call].all (first.value == ·.value) = false by decide +kernel] at hother
  exact ⟨htwo, hother⟩

theorem long_equation_is_too_deep :
    let c : Sides := .repeated .equals 3000
    let vs : Values := .x (.whole 1)
    parseRelations {} (.ofList (Chain.repeated .equals 3000).source) = .ok c.tree ∧
      (∀ s ∈ c.all, s.tree.value vs ∅ = .ok (some s.value) ∧ (1.0 == s.value) = true) ∧
      c.tree.value vs ∅ = .error .tooDeep ∧ c.tree.truth vs ∅ = .error .tooDeep := by
  intro c vs
  refine ⟨parseRelations_repeated .equals 3000, ?_, ?_, ?_⟩
  · intro s hs
    obtain rfl := Sides.eq_of_mem_repeated hs
    exact ⟨rfl, by decide +kernel⟩
  · exact Sides.value_repeated .equals (by decide) vs ∅
  · exact Sides.truth_repeated .equals (by decide) vs ∅

end Formula
