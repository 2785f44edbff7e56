import Formula.Proofs.EqualOptions
import Formula.Proofs.Reduction

/-!
# What is left over

A list of parts is refused for what is left of it only when the passes have used up all that
they could. Each pass takes every part of its kind or complains, and what it puts in their
place is an operand, so no later pass brings back what an earlier one took.
-/

namespace Formula.Part

variable {o : Options} {rule : Rule} {P : Part → Prop} {ps out : List Part}

-- ---------------------------------------------------------------------------
-- Where the complaint comes from
-- ---------------------------------------------------------------------------

theorem single_eq_leftover (h : single ps = .error (.leftover out)) :
    ps = out ∧ ∀ p, out = [p] → p.isOperand = false := by
  unfold single at h
  split at h
  · split at h <;> cases h
    rename_i hp
    refine ⟨rfl, fun p heq => ?_⟩
    cases heq
    exact isOperand_eq_false.mpr hp
  · rename_i hsingle
    cases h
    exact ⟨rfl, fun p heq => absurd heq (hsingle p)⟩

theorem reduce_eq_leftover (h : reduce o ps = .error (.leftover out)) :
    ∃ called, applyCalls o.functions (nameLeaves o.variableNames.texts ps) = .ok called ∧
      applyOperators o called = .ok out ∧ ∀ p, out = [p] → p.isOperand = false := by
  rcases bind_eq_error.mp h with h | ⟨called, hcalls, h⟩
  · rcases bind_eq_error.mp h with h | ⟨_, -, h⟩
    · cases makeCalls_miscalled h
    · cases h
  rcases bind_eq_error.mp h with h | ⟨left, hops, h⟩
  · cases applyOperators_stuck h
  · obtain ⟨rfl, hsingle⟩ := single_eq_leftover h
    exact ⟨called, hcalls, hops, hsingle⟩

-- ---------------------------------------------------------------------------
-- What no pass brings back
-- ---------------------------------------------------------------------------

theorem Callee.isNumeric_of_call {c : Callee} (h : c.call args = .ok e) : e.isNumeric = true := by
  cases c with
  | declared d =>
    obtain ⟨-, rfl⟩ := call_declared_eq_ok.mp h
    rfl
  | builtin name f =>
    obtain ⟨es, -, he⟩ := call_builtin_eq_ok.mp h
    unfold Builtin.call? at he
    split at he <;> cases he <;> rfl

theorem forall_nameLeaves (vars : OrderedSet String) (hP : ∀ e, e.isNumeric = true → P (.tree e))
    (hps : ∀ p ∈ ps, P p) :
    ∀ p ∈ nameLeaves vars ps,
      P p ∧ ∀ name, p = .pending name → name ∉ vars ∧ name ∉ Builtin.constantNames := by
  refine List.forall_mem_map.mpr fun p hp => ?_
  cases p with
  | pending text =>
    rcases nameLeaf_pending vars text with ⟨-, h⟩ | ⟨-, e, hc, h⟩ | ⟨hv, hc, h⟩ <;> rw [h]
    · exact ⟨hP _ rfl, nofun⟩
    · rcases constant?_eq_some hc with ⟨-, rfl | rfl⟩ <;> exact ⟨hP _ rfl, nofun⟩
    · refine ⟨hps _ hp, fun name heq => ?_⟩
      cases heq
      exact ⟨hv, constant?_eq_none.mp hc⟩
  | _ => exact ⟨hps _ hp, nofun⟩

theorem forall_applyCalls {functions : FunctionTable} (hP : ∀ e, e.isNumeric = true → P (.tree e))
    (h : applyCalls functions ps = .ok out) (hps : ∀ p ∈ ps, P p) :
    ∀ p ∈ out, (P p ∧ callee? functions p = none) ∧ p.isEmptyList = false := by
  obtain ⟨called, hcalled, rfl⟩ := applyCalls_eq_ok.mp h
  have hmem : ∀ p ∈ called, P p ∧ callee? functions p = none := by
    refine (makeCalls_ok hcalled false).forall_mem (fun _ ls p hp hls => ?_) hps
    cases hp with
    | part hc => exact ⟨hls _ List.mem_cons_self, hc⟩
    | bare _ he | applied _ _ he => exact ⟨hP _ (Callee.isNumeric_of_call he), rfl⟩
  intro p hp
  obtain ⟨hp, hempty⟩ := List.mem_filter.mp hp
  exact ⟨hmem p hp, by simpa using hempty⟩

theorem forall_applySigns (hP : ∀ e, e.isNumeric = true → P (.tree e))
    (h : applySigns b ps = .ok out) (hps : ∀ p ∈ ps, P p) : ∀ p ∈ out, P p := by
  refine (applySigns_ok h).forall_mem (fun _ ls p hp hls => ?_) hps
  cases hp with
  | part => exact hls _ List.mem_cons_self
  | negated => exact hP _ rfl

theorem forall_fold (hrule : rule.Numeric) (hP : ∀ e, e.isNumeric = true → P (.tree e))
    (h : fold rule ps = .ok out) (hps : ∀ p ∈ ps, P p) :
    ∀ p ∈ out, P p ∧ operator? rule p = none := by
  refine (fold_ok h false).forall_mem (fun _ ls p hp hls => ?_) hps
  cases hp with
  | part hop => exact ⟨hls _ List.mem_cons_self, hop⟩
  | operator _ _ hop _ => exact ⟨hP _ (hrule _ _ _ _ (operator?_eq_some.mp hop).2), rfl⟩

theorem forall_join (hP : ∀ e, e.isNumeric = true → P (.tree e)) (hps : ∀ p ∈ ps, P p) :
    ∀ p ∈ join ps, P p := by
  refine (join_grouped ps).forall_mem (fun _ ls p hp hls => ?_) hps
  cases hp.1 with
  | part => exact hls _ List.mem_cons_self
  | product => exact hP _ rfl

theorem not_mem_operators (hpower : operator? powerRule (.pending name) = none)
    (hproduct : operator? productRule (.pending name) = none)
    (hsum : operator? (sumRule o.minusIsNegative) (.pending name) = none) :
    name ∉ ["+", "-", "*", "/", "^"] := by
  intro h
  simp only [List.mem_cons, List.not_mem_nil, or_false] at h
  rcases h with rfl | rfl | rfl | rfl | rfl
  · cases hsum
  · cases hsum
  · cases hproduct
  · cases hproduct
  · cases hpower

theorem forall_applyOperators (hP : ∀ e, e.isNumeric = true → P (.tree e))
    (h : applyOperators o ps = .ok out) (hps : ∀ p ∈ ps, P p) :
    ∀ p ∈ out, P p ∧ ∀ name, p = .pending name → name ∉ ["+", "-", "*", "/", "^"] := by
  simp only [applyOperators, bind_eq_ok] at h
  obtain ⟨signed, h₁, powers, h₂, products, h₄, h₅⟩ := h
  have hpowers := forall_fold powerRule_numeric hP h₂ (forall_applySigns hP h₁ hps)
  have hjoined : ∀ p ∈ if o.implicitProduct.holds then join powers else powers,
      P p ∧ operator? powerRule p = none := by
    split
    · exact forall_join (fun e he => ⟨hP e he, rfl⟩) hpowers
    · exact hpowers
  have hproducts := forall_fold productRule_numeric (fun e he => ⟨hP e he, rfl⟩) h₄ hjoined
  have hsums := forall_fold sumRule_numeric (fun e he => ⟨⟨hP e he, rfl⟩, rfl⟩) h₅ hproducts
  intro p hp
  obtain ⟨⟨⟨hpart, hpower⟩, hproduct⟩, hsum⟩ := hsums p hp
  refine ⟨hpart, fun name heq => ?_⟩
  subst heq
  exact not_mem_operators hpower hproduct hsum

theorem callee?_pending_eq_none {functions : FunctionTable} :
    callee? functions (.pending name) = none ↔
      name ∉ functions.textNames ∧ name ∉ Builtin.functionNames := by
  rw [← FunctionTable.isSome_byName?, ← function?_eq_none]
  cases hd : functions.byName? (.text name) <;> simp [callee?, hd]

-- ---------------------------------------------------------------------------
-- No operands side by side
-- ---------------------------------------------------------------------------

/-- No operand of a list, which comes after an operand or not, comes right after another. -/
def Spaced : Bool → List Part → Prop
  | _, [] => True
  | b, p :: ps => (b = true → p.isOperand = false) ∧ Spaced p.isOperand ps

theorem spaced_append : Spaced b (ps ++ qs) ↔ Spaced b ps ∧ Spaced (endsOperand b ps) qs := by
  induction ps generalizing b with
  | nil => simp [Spaced, endsOperand]
  | cons p ps ih => simp [Spaced, endsOperand, ih, and_assoc]

theorem Spaced.isChain (h : Spaced b ps) :
    ps.IsChain fun p q => ¬(p.isOperand = true ∧ q.isOperand = true) := by
  induction ps generalizing b with
  | nil => exact .nil
  | cons p ps ih =>
    refine List.isChain_cons.mpr ⟨fun q hq hboth => ?_, ih h.2⟩
    cases ps with
    | nil => cases hq
    | cons q' ps =>
      cases hq
      rw [h.2.1 hboth.1] at hboth
      exact nomatch hboth.2

/-- What a fold makes of operands and operators stands where the first operand stood, and before
what the last one stood before. -/
theorem Folded.spaced (hrule : rule.Numeric) (h : Folded rule ls p) (hs : Spaced b ls) :
    (b = true → p.isOperand = false) ∧ endsOperand b ls = p.isOperand := by
  induction h with
  | part => exact ⟨hs.1, rfl⟩
  | @operator ls l x q op build y r hl hx hop hy ih =>
    have hmade := isOperand_tree (hrule op build x y (operator?_eq_some.mp hop).2)
    have hleft : l.isOperand = true := by simp [isOperand, hx]
    have hright : r.isOperand = true := by simp [isOperand, hy]
    refine ⟨fun hb => ?_, by simp [endsOperand, hmade, hright]⟩
    rw [(ih (spaced_append.mp hs).1).1 hb] at hleft
    cases hleft

theorem Spaced.fold (hrule : rule.Numeric) (h : Grouped (fun _ => Folded rule) b ps out)
    (hs : Spaced b ps) : Spaced b out := by
  induction h with
  | nil => trivial
  | cons hp _ ih =>
    obtain ⟨hgroup, hrest⟩ := spaced_append.mp hs
    obtain ⟨hfirst, hends⟩ := hp.spaced hrule hgroup
    exact ⟨hfirst, ih (hends ▸ hrest)⟩

theorem spaced_join (ps : List Part) : Spaced false (join ps) := by
  have h := join_grouped ps
  generalize join ps = out, false = b at h
  induction h with
  | nil => trivial
  | cons hp _ ih => exact ⟨hp.2, ih⟩

theorem spaced_applyOperators (hproduct : o.implicitProduct.holds = true)
    (h : applyOperators o ps = .ok out) : Spaced false out := by
  simp only [applyOperators, bind_eq_ok, hproduct, if_true] at h
  obtain ⟨-, -, powers, -, products, h₄, h₅⟩ := h
  have hproducts := (spaced_join powers).fold productRule_numeric (fold_ok h₄ false)
  exact hproducts.fold sumRule_numeric (fold_ok h₅ false)

theorem Spaced.eq_nil_or_single (h : Spaced b ps) (hps : ∀ p ∈ ps, p.isOperand = true) :
    ps = [] ∨ ∃ p, ps = [p] ∧ p.isOperand = true := by
  match ps, h with
  | [], _ => exact .inl rfl
  | [p], _ => exact .inr ⟨p, rfl, hps p List.mem_cons_self⟩
  | p :: q :: ps, h =>
    have hq := h.2.1 (hps p List.mem_cons_self)
    rw [hps q (by simp)] at hq
    cases hq

-- ---------------------------------------------------------------------------
-- Left over
-- ---------------------------------------------------------------------------

/-- No operator, and the name of nothing that a formula may name. -/
structure Unknown (o : Options) (name : String) : Prop where
  notOperator : name ∉ ["+", "-", "*", "/", "^"]
  notVariable : name ∉ o.variableNames.texts
  notConstant : name ∉ Builtin.constantNames
  notFunction : name ∉ o.functions.textNames
  notBuiltin : name ∉ Builtin.functionNames

theorem unknown_of_leftover (hP : ∀ e, e.isNumeric = true → P (.tree e))
    (hcalls : applyCalls o.functions (nameLeaves o.variableNames.texts ps) = .ok called)
    (hops : applyOperators o called = .ok out) (hps : ∀ p ∈ ps, P p) :
    ∀ p ∈ out, P p ∧ (∀ name, p = .pending name → Unknown o name) ∧ p.isEmptyList = false := by
  have hnames := forall_nameLeaves o.variableNames.texts hP hps
  have hcalled := forall_applyCalls (fun e he => ⟨hP e he, nofun⟩) hcalls hnames
  have hout := forall_applyOperators (fun e he => ⟨⟨⟨hP e he, nofun⟩, rfl⟩, rfl⟩) hops hcalled
  intro p hp
  obtain ⟨⟨⟨⟨hpart, hname⟩, hcallee⟩, hempty⟩, hoperator⟩ := hout p hp
  refine ⟨hpart, fun name heq => ?_, hempty⟩
  subst heq
  obtain ⟨hvariable, hconstant⟩ := hname name rfl
  obtain ⟨hfunction, hbuiltin⟩ := callee?_pending_eq_none.mp hcallee
  exact ⟨hoperator name rfl, hvariable, hconstant, hfunction, hbuiltin⟩

/-- In what a list is refused for, every waiting text is unknown and no brackets are empty. Where
operands side by side are multiplied none are left so, and what is left is nothing, or has an
unknown text or brackets with something in them. -/
theorem leftovers_are_unusable (o : Options) (ps out : List Part)
    (h : reduce o ps = .error (.leftover out)) :
    (∀ name, .pending name ∈ out → Unknown o name) ∧ .arguments [] ∉ out ∧
      (o.implicitProduct.holds = true →
        out.IsChain (fun p q => ¬(p.isOperand = true ∧ q.isOperand = true)) ∧
          ((∀ e, .tree e ∈ ps → e.isNumeric = true) →
            out = [] ∨ (∃ name, .pending name ∈ out ∧ Unknown o name) ∨
              ∃ e es, .arguments (e :: es) ∈ out)) := by
  obtain ⟨called, hcalls, hops, hsingle⟩ := reduce_eq_leftover h
  have hout := unknown_of_leftover (P := fun _ => True) (fun _ _ => trivial) hcalls hops
    fun _ _ => trivial
  refine ⟨fun name hm => (hout _ hm).2.1 name rfl, fun hm => (nomatch (hout _ hm).2.2),
    fun hproduct => ?_⟩
  have hspaced := spaced_applyOperators hproduct hops
  refine ⟨hspaced.isChain, fun hnumeric => ?_⟩
  have hout := unknown_of_leftover (P := fun p => ∀ e, p = .tree e → e.isNumeric = true)
    (fun _ he _ heq => by cases heq; exact he) hcalls hops
    fun p hp e heq => hnumeric e (heq ▸ hp)
  by_cases hoperands : ∀ p ∈ out, p.isOperand = true
  · -- A single operand would have been the tree.
    rcases hspaced.eq_nil_or_single hoperands with hempty | ⟨p, heq, hp⟩
    · exact .inl hempty
    · rw [hsingle p heq] at hp
      cases hp
  · simp only [not_forall] at hoperands
    obtain ⟨p, hp, hnot⟩ := hoperands
    obtain ⟨htree, hname, hempty⟩ := hout p hp
    match p with
    | .pending name => exact .inr (.inl ⟨name, hp, hname name rfl⟩)
    | .arguments [] => cases hempty
    | .arguments (e :: es) => exact .inr (.inr ⟨e, es, hp⟩)
    | .tree e => exact absurd (isOperand_tree (htree e rfl)) hnot

/-- Of `(x) x y ()` the product of the first two is left, and a name that nothing has. -/
theorem leftovers_are_unusable_undeclared :
    let parts : List Part := [.tree (.named "x"), .pending "x", .pending "y", .arguments []]
    let left : List Part :=
      [.tree (.binary .multiply (.named "x") (.named "x")), .pending "y"]
    reduce {} parts = .error (.leftover left) ∧ Unknown {} "y" ∧ .arguments [] ∉ left ∧
      left.IsChain (fun p q => ¬(p.isOperand = true ∧ q.isOperand = true)) ∧
      (left = [] ∨ (∃ name, .pending name ∈ left ∧ Unknown {} name) ∨
        ∃ e es, .arguments (e :: es) ∈ left) := by
  intro parts left
  have hleft : reduce {} parts = .error (.leftover left) := by rfl
  obtain ⟨hunknown, hempty, hproduct⟩ := leftovers_are_unusable {} parts left hleft
  obtain ⟨hapart, hrest⟩ := hproduct rfl
  have hnumeric : ∀ e, .tree e ∈ parts → e.isNumeric = true := by
    intro e he
    simp only [parts, List.mem_cons, tree.injEq, reduceCtorEq, List.not_mem_nil, or_false] at he
    subst he
    rfl
  exact ⟨hleft, hunknown "y" (by simp [left]), hempty, hapart, hrest hnumeric⟩

end Formula.Part
