import Formula.Part.Reduction
import Formula.Proofs.Outcome

/-!
# What a pass makes of a list of parts

Every pass cuts a list into consecutive groups and puts one part in the place of
each. A group is a part that stays, a sign with its operand, operands with the
operators between them, operands side by side, or a name with what it is called
on. For each pass this module says which groups it makes, and under which
conditions such a cut is the one that the pass makes.
-/

namespace Formula.Part

variable {G H : Bool → List Part → Part → Prop} {rule : Rule}

theorem operand?_eq_some {p : Part} : p.operand? = some e ↔ p = .tree e ∧ e.isNumeric = true := by
  cases p with
  | tree e' =>
    simp only [operand?, Option.ite_none_right_eq_some, Option.some.injEq, tree.injEq]
    exact ⟨fun ⟨h, he⟩ => ⟨he, he ▸ h⟩, fun ⟨he, h⟩ => ⟨he ▸ h, he⟩⟩
  | _ => simp [operand?]

theorem operand?_tree (h : e.isNumeric = true) : (Part.tree e).operand? = some e := by
  simp [operand?, h]

theorem isOperand_tree (h : e.isNumeric = true) : (Part.tree e).isOperand = true := by
  simp [isOperand, operand?, h]

theorem isOperand_eq_false {p : Part} : p.isOperand = false ↔ p.operand? = none := by
  simp [isOperand]

def endsOperand : Bool → List Part → Bool
  | b, [] => b
  | _, p :: ps => endsOperand p.isOperand ps

@[simp] theorem endsOperand_append (b : Bool) (ps qs : List Part) :
    endsOperand b (ps ++ qs) = endsOperand (endsOperand b ps) qs := by
  induction ps generalizing b with
  | nil => rfl
  | cons p ps ih => exact ih p.isOperand

/-- The list `ps` is cut into groups, and the group before each part of `out` is
what `G` makes that part of. `G` is told whether the part comes after an operand. -/
inductive Grouped (G : Bool → List Part → Part → Prop) : Bool → List Part → List Part → Prop
  | nil : Grouped G b [] []
  | cons : G b ls p → Grouped G p.isOperand ps out → Grouped G b (ls ++ ps) (p :: out)

namespace Grouped

theorem mono (h : Grouped G b ps out) (hG : ∀ b ls p, G b ls p → H b ls p) :
    Grouped H b ps out := by
  induction h with
  | nil => exact .nil
  | cons hp _ ih => exact .cons (hG _ _ _ hp) ih

theorem append (h : Grouped G b ps out) (h' : Grouped G (endsOperand b out) ps' out') :
    Grouped G b (ps ++ ps') (out ++ out') := by
  induction h with
  | nil => exact h'
  | cons hp _ ih =>
    rw [List.append_assoc]
    exact .cons hp (ih h')

theorem cons_part (h : G b [q] p) (h' : Grouped G p.isOperand ps out) :
    Grouped G b (q :: ps) (p :: out) := .cons h h'

theorem single (h : G b ls p) : Grouped G b ls [p] := by
  have := Grouped.cons h .nil
  rwa [List.append_nil] at this

theorem single_iff : Grouped G b ls [p] ↔ G b ls p := by
  constructor
  · rintro (_ | ⟨hp, _ | _⟩)
    rwa [List.append_nil]
  · exact single

theorem split (h : Grouped G b ps (out ++ out')) :
    ∃ ls rs, ps = ls ++ rs ∧ Grouped G b ls out ∧ Grouped G (endsOperand b out) rs out' := by
  induction out generalizing b ps with
  | nil => exact ⟨[], ps, rfl, .nil, h⟩
  | cons p out ih =>
    cases h with
    | @cons _ gs _ ps' _ hp hps =>
      obtain ⟨ls, rs, rfl, hl, hr⟩ := ih hps
      exact ⟨gs ++ ls, rs, (List.append_assoc ..).symm, .cons hp hl, hr⟩

theorem split_cons (h : Grouped G b ps (p :: out)) :
    ∃ ls rs, ps = ls ++ rs ∧ G b ls p ∧ Grouped G p.isOperand rs out := by
  cases h with
  | cons hp hps => exact ⟨_, _, rfl, hp, hps⟩

/-- Cuts one after the other are a cut, where the groups of the groups are known. -/
theorem comp {G' : Bool → List Part → Part → Prop}
    (hG : ∀ b ms p, H b ms p → endsOperand b ms = p.isOperand ∧
      ∀ ls, Grouped G b ls ms → G' b ls p)
    (h : Grouped G b ps ms) (k : Grouped H b ms out) : Grouped G' b ps out := by
  induction k generalizing ps with
  | nil => cases h; exact .nil
  | @cons b gs p ms out hp _ ih =>
    obtain ⟨ls, rs, rfl, hl, hr⟩ := h.split
    obtain ⟨hend, hread⟩ := hG _ _ _ hp
    exact .cons (hread ls hl) (ih (hend ▸ hr))

theorem factor {G' : Bool → List Part → Part → Prop}
    (hG : ∀ b ls p, G' b ls p →
      ∃ ms, Grouped G b ls ms ∧ H b ms p ∧ endsOperand b ms = p.isOperand)
    (h : Grouped G' b ps out) : ∃ ms, Grouped G b ps ms ∧ Grouped H b ms out := by
  induction h with
  | nil => exact ⟨[], .nil, .nil⟩
  | cons hp _ ih =>
    obtain ⟨ms, hm, hk, hend⟩ := hG _ _ _ hp
    obtain ⟨ms', hm', hk'⟩ := ih
    exact ⟨ms ++ ms', hm.append (hend ▸ hm'), .cons hk hk'⟩

theorem flatMap_eq {f f' : Part → List α} (h : Grouped G b ps out)
    (hG : ∀ b ls p, G b ls p → ls.flatMap f = f' p) : ps.flatMap f = out.flatMap f' := by
  induction h with
  | nil => rfl
  | cons hp _ ih => rw [List.flatMap_append, List.flatMap_cons, hG _ _ _ hp, ih]

theorem mem (h : Grouped G b ps out) (hG : ∀ b ls p, G b ls p → q ∈ ls → p = q) (hq : q ∈ ps) :
    q ∈ out := by
  induction h with
  | nil => exact hq
  | cons hp _ ih =>
    rcases List.mem_append.mp hq with hl | hr
    · exact hG _ _ _ hp hl ▸ List.mem_cons_self
    · exact List.mem_cons_of_mem _ (ih hr)

theorem forall_mem {P Q : Part → Prop} (h : Grouped G b ps out)
    (hG : ∀ b ls p, G b ls p → (∀ q ∈ ls, P q) → Q p) (hP : ∀ q ∈ ps, P q) : ∀ p ∈ out, Q p := by
  induction h with
  | nil => nofun
  | cons hp _ ih =>
    rw [List.forall_mem_append] at hP
    exact List.forall_mem_cons.mpr ⟨hG _ _ _ hp hP.1, ih hP.2⟩

end Grouped

-- ---------------------------------------------------------------------------
-- Calls
-- ---------------------------------------------------------------------------

theorem callee?_eq_some {functions : FunctionTable} {p : Part} :
    callee? functions p = some c ↔ ∃ name, p = .pending name ∧
      ((∃ d, functions.byName? (.text name) = some d ∧ c = .declared d) ∨
        functions.byName? (.text name) = none ∧
          ∃ f, Builtin.function? name = some f ∧ c = .builtin name f) := by
  cases p with
  | pending name =>
    cases hd : functions.byName? (.text name) with
    | some d => simp [callee?, hd, eq_comm]
    | none =>
      simp only [callee?, hd, Option.map_eq_some_iff, pending.injEq, exists_eq_left', reduceCtorEq,
        false_and, exists_false, true_and, false_or]
      exact exists_congr fun f => and_congr_right fun _ => eq_comm
  | _ => simp [callee?]

theorem arguments?_eq_some {p : Part} : p.arguments? = some es ↔
    p = .arguments es ∨ ∃ e, e.isNumeric = true ∧ p = .tree e ∧ es = [e] := by
  cases p with
  | pending => simp [arguments?, operand?]
  | arguments => simp [arguments?]
  | tree e =>
    simp only [arguments?, Option.map_eq_some_iff, operand?_eq_some]
    constructor
    · rintro ⟨e', ⟨he, hn⟩, rfl⟩
      exact .inr ⟨e', hn, he, rfl⟩
    · rintro (h | ⟨e', hn, he, rfl⟩)
      · cases h
      · exact ⟨e', ⟨he, hn⟩, rfl⟩

theorem Callee.call_declared_eq_ok : (Callee.declared d).call args = .ok e ↔
    d.signature.accepts (args.getD []).length = some true ∧ e = .call d (args.getD []) := by
  simp only [call]
  split
  · rename_i h
    simp [h, eq_comm]
  · rename_i h
    simp [h]
  · rename_i h
    simp [h]

theorem Callee.call_builtin_eq_ok : (Callee.builtin name f).call args = .ok e ↔
    ∃ es, args = some es ∧ f.call? es = some e := by
  rw [← Option.bind_eq_some_iff, call]
  cases args.bind f.call? <;> simp

/-- A part that calls nothing, or a call of it with or without the part after it. -/
inductive Called (functions : FunctionTable) : List Part → Part → Prop
  | part : callee? functions p = none → Called functions [p] p
  | bare : callee? functions p = some c → c.call none = .ok e → Called functions [p] (.tree e)
  | applied : callee? functions p = some c → next.arguments? = some es →
      c.call (some es) = .ok e → Called functions [p, next] (.tree e)

theorem makeCalls_ok {functions : FunctionTable} (h : makeCalls functions ps = .ok out) (b : Bool) :
    Grouped (fun _ => Called functions) b ps out := by
  fun_induction makeCalls functions ps generalizing b out with
  | case1 => cases h; exact .nil
  | case2 p rest hc ih =>
    obtain ⟨later, hl, h⟩ := bind_eq_ok.mp h
    cases h
    exact .cons (.part hc) (ih hl _)
  | case3 p c hc =>
    obtain ⟨e, he, h⟩ := bind_eq_ok.mp h
    cases h
    exact .single (.bare hc he)
  | case4 p c hc next rest es hn ih =>
    obtain ⟨e, he, h⟩ := bind_eq_ok.mp h
    obtain ⟨later, hl, h⟩ := bind_eq_ok.mp h
    cases h
    exact .cons (.applied hc hn he) (ih hl _)
  | case5 p c hc next rest hn ih =>
    obtain ⟨e, he, h⟩ := bind_eq_ok.mp h
    obtain ⟨later, hl, h⟩ := bind_eq_ok.mp h
    cases h
    exact .cons (.bare hc he) (ih hl _)

/-- Why a call cannot be made: its arguments are too few or too many, or no number says how many
there may be. -/
inductive Miscalled : ParseError → Prop
  | argumentCount (function : String) : Miscalled (.argumentCount function)
  | unfitRange (s : Signature) : Miscalled (.unfitRange s)

theorem Callee.miscalled {c : Callee} (h : c.call args = .error err) : Miscalled err := by
  cases c with
  | declared d =>
    simp only [call] at h
    split at h <;> cases h
    · exact .argumentCount _
    · exact .unfitRange _
  | builtin name f =>
    simp only [call] at h
    split at h <;> cases h
    exact .argumentCount _

theorem makeCalls_miscalled {functions : FunctionTable} (h : makeCalls functions ps = .error err) :
    Miscalled err := by
  fun_induction makeCalls functions ps with
  | case1 => cases h
  | case2 _ _ _ ih =>
    rcases bind_eq_error.mp h with h | ⟨_, -, h⟩
    · exact ih h
    · cases h
  | case3 =>
    rcases bind_eq_error.mp h with h | ⟨_, -, h⟩
    · exact Callee.miscalled h
    · cases h
  | case4 _ _ _ _ _ _ _ ih | case5 _ _ _ _ _ _ ih =>
    rcases bind_eq_error.mp h with h | ⟨_, -, h⟩
    · exact Callee.miscalled h
    rcases bind_eq_error.mp h with h | ⟨_, -, h⟩
    · exact ih h
    · cases h

-- ---------------------------------------------------------------------------
-- Signs
-- ---------------------------------------------------------------------------

/-- A part that stays, or a minus sign after no operand and its operand. -/
inductive Signed : Bool → List Part → Part → Prop
  | part : Signed b [p] p
  | negated : m.isMinus = true → p.operand? = some e →
      Signed false [m, p] (.tree (.unary .negate e))

theorem applySigns_ok (h : applySigns b ps = .ok out) : Grouped Signed b ps out := by
  fun_induction applySigns b ps generalizing out with
  | case1 => cases h; exact .nil
  | case2 => cases h; exact .single .part
  | case3 b m hs p rest e he ih =>
    obtain ⟨hm, hb⟩ := Bool.and_eq_true_iff.mp hs
    obtain ⟨later, hl, h⟩ := bind_eq_ok.mp h
    cases h
    cases b with
    | true => cases hb
    | false =>
      have ht : (Part.tree (.unary .negate e)).isOperand = true := isOperand_tree rfl
      have hs : Signed false [m, p] (.tree (.unary .negate e)) := .negated hm he
      exact .cons hs (ht ▸ ih hl)
  | case4 => cases h
  | case5 b p rest hm ih =>
    obtain ⟨later, hl, h⟩ := bind_eq_ok.mp h
    cases h
    exact .cons_part .part (ih hl)

theorem applySigns_of_grouped
    (h : Grouped (fun b ls p => Signed b ls p ∧ (p.isMinus = true → b = true)) b ps out) :
    applySigns b ps = .ok out := by
  induction h with
  | nil => simp [applySigns]
  | @cons b ls p ps out hp _ ih =>
    obtain ⟨hp, hb⟩ := hp
    cases hp with
    | part =>
      have hm : ¬(p.isMinus && !b) = true := by
        cases b <;> simp_all
      rw [List.singleton_append, applySigns.eq_def]
      dsimp only
      rw [if_neg hm, ih]
      rfl
    | @negated e m q hm he =>
      have ht : (Part.tree (.unary .negate e)).isOperand = true := isOperand_tree rfl
      rw [ht] at ih
      simp [applySigns, hm, he, ih, pure, Except.pure]

-- ---------------------------------------------------------------------------
-- Operators
-- ---------------------------------------------------------------------------

theorem operator?_eq_some {p : Part} :
    operator? rule p = some (op, build) ↔ p = .pending op ∧ rule op = some build := by
  cases p with
  | pending text =>
    simp only [operator?, Option.map_eq_some_iff, Prod.mk.injEq, pending.injEq]
    constructor
    · rintro ⟨f, hf, rfl, rfl⟩
      exact ⟨rfl, hf⟩
    · rintro ⟨rfl, h⟩
      exact ⟨build, h, rfl, rfl⟩
  | _ => simp [operator?]

theorem requireOperand_eq_ok {p : Part} : requireOperand p = .ok e ↔ p.operand? = some e := by
  unfold requireOperand
  cases p.operand? <;> simp

/-- A part that is no operator, or what the operators after it make of it and of
their right operands. -/
inductive Folded (rule : Rule) : List Part → Part → Prop
  | part : operator? rule p = none → Folded rule [p] p
  | operator : Folded rule ls l → l.operand? = some x → operator? rule p = some (op, build) →
      r.operand? = some y → Folded rule (ls ++ [p, r]) (.tree (build x y))

theorem foldFrom_ok (h : foldFrom rule (some l) ps = .ok out) (hl : Folded rule ls l) (b : Bool) :
    Grouped (fun _ => Folded rule) b (ls ++ ps) out := by
  generalize hs : some l = left at h
  fun_induction foldFrom rule left ps generalizing b l ls out with
  | case1 =>
    subst hs
    cases h
    rw [List.append_nil]
    exact .single hl
  | case2 left p rest hp ih =>
    subst hs
    obtain ⟨later, hk, h⟩ := bind_eq_ok.mp h
    cases h
    exact .cons hl (ih (.part hp) _ rfl hk)
  | case3 p op build hp left r rest ih =>
    cases hs
    obtain ⟨x, hx, h⟩ := bind_eq_ok.mp h
    obtain ⟨y, hy, h⟩ := bind_eq_ok.mp h
    have hl' := hl.operator (requireOperand_eq_ok.mp hx) hp (requireOperand_eq_ok.mp hy)
    have := ih _ _ hl' b rfl h
    rwa [List.append_assoc] at this
  | case4 => cases h

theorem fold_ok (h : fold rule ps = .ok out) (b : Bool) :
    Grouped (fun _ => Folded rule) b ps out := by
  cases ps with
  | nil => cases h; exact .nil
  | cons p rest =>
    simp only [fold, foldFrom] at h
    cases hp : operator? rule p with
    | some o => simp [hp] at h
    | none =>
      simp only [hp] at h
      obtain ⟨later, hk, h⟩ := bind_eq_ok.mp h
      cases h
      exact foldFrom_ok hk (.part hp) b

theorem Folded.foldFrom_none (h : Folded rule ls p) (rest : List Part) :
    foldFrom rule none (ls ++ rest) = foldFrom rule (some p) rest := by
  induction h generalizing rest with
  | @part p hp =>
    rw [List.singleton_append, foldFrom, hp]
    cases foldFrom rule (some p) rest <;> rfl
  | @operator ls l x p op build y r hl hx hp hy ih =>
    rw [List.append_assoc, ih]
    simp [foldFrom, hp, requireOperand_eq_ok.mpr hx, requireOperand_eq_ok.mpr hy]

theorem Folded.foldFrom_some (h : Folded rule ls p) (q : Part) (rest : List Part) :
    foldFrom rule (some q) (ls ++ rest) = (q :: ·) <$> foldFrom rule none (ls ++ rest) := by
  induction h generalizing rest with
  | @part p hp =>
    simp only [List.singleton_append, foldFrom, hp]
    cases foldFrom rule (some p) rest <;> rfl
  | operator _ _ _ _ ih =>
    simp only [List.append_assoc]
    exact ih _

/-- A fold makes every cut into its groups. -/
theorem fold_of_grouped (h : Grouped (fun _ => Folded rule) b ps out) : fold rule ps = .ok out := by
  induction h with
  | nil => rfl
  | @cons b ls p ps out hp hps ih =>
    have hsome : foldFrom rule (some p) ps = (p :: ·) <$> foldFrom rule none ps := by
      cases hps with
      | nil => rfl
      | cons hq _ => exact hq.foldFrom_some p _
    rw [fold, hp.foldFrom_none, hsome, ← fold, ih]
    rfl

-- ---------------------------------------------------------------------------
-- Operands side by side
-- ---------------------------------------------------------------------------

inductive Joined : List Part → Part → Prop
  | part : Joined [p] p
  | product : Joined ls l → l.operand? = some x → r.operand? = some y →
      Joined (ls ++ [r]) (.tree (.binary .multiply x y))

def JoinedAll (b : Bool) (ls : List Part) (p : Part) : Prop :=
  Joined ls p ∧ (b = true → p.isOperand = false)

theorem joinFrom_grouped (ps : List Part) (hl : Joined ls l) (hb : b = true → l.isOperand = false) :
    Grouped JoinedAll b (ls ++ ps) (joinFrom l ps) := by
  fun_induction joinFrom l ps generalizing b ls with
  | case1 =>
    rw [List.append_nil]
    exact .single ⟨hl, hb⟩
  | case2 l r rest x y hy hx ih =>
    have hb' : b = false := by
      cases b with
      | true => simp [isOperand, hx] at hb
      | false => rfl
    subst hb'
    have h := ih (hl.product hx hy) (nofun : false = true → _)
    rwa [List.append_assoc] at h
  | case3 l p rest hn ih =>
    refine .cons ⟨hl, hb⟩ (ih .part fun h => ?_)
    obtain ⟨x, hx⟩ := Option.isSome_iff_exists.mp h
    exact isOperand_eq_false.mpr (Option.eq_none_iff_forall_ne_some.mpr fun y hy => hn x y hx hy)

theorem join_grouped (ps : List Part) : Grouped JoinedAll false ps (join ps) := by
  cases ps with
  | nil => exact .nil
  | cons p rest =>
    have hp : Joined [p] p := .part
    exact joinFrom_grouped rest hp nofun

theorem Joined.join_append (h : Joined ls p) (rest : List Part) :
    join (ls ++ rest) = joinFrom p rest := by
  induction h generalizing rest with
  | part => rfl
  | product _ hx hy ih =>
    rw [List.append_assoc, ih]
    simp [joinFrom, hx, hy]

theorem Joined.joinFrom_append (h : Joined ls p) (hq : q.isOperand = true → p.isOperand = false)
    (rest : List Part) : joinFrom q (ls ++ rest) = q :: join (ls ++ rest) := by
  induction h generalizing rest with
  | @part p =>
    simp only [List.singleton_append, joinFrom, join]
    split
    · rename_i x y hx hy
      simp [isOperand, hx, hy] at hq
    · rfl
  | product _ _ _ ih =>
    simp only [List.append_assoc]
    refine ih (fun h => ?_) _
    rw [isOperand_tree rfl] at hq
    exact absurd (hq h) (by simp)

theorem join_of_grouped (h : Grouped JoinedAll b ps out) : join ps = out := by
  induction h with
  | nil => rfl
  | @cons b ls p ps out hp hps ih =>
    have hjoin : joinFrom p ps = p :: join ps := by
      cases hps with
      | nil => rfl
      | cons hq _ => exact hq.1.joinFrom_append hq.2 _
    rw [hp.1.join_append, hjoin, ih]

end Formula.Part
