import Formula.Proofs.EqualNumbers
import Formula.Proofs.Limits
import Formula.Proofs.Readings
import Formula.Proofs.Reduction

/-!
# Reading under two options

The same text can be read under two options that make related trees of it, such as the same
trees but for the way a subtraction is written. When what a single step makes of related trees
is related, so is what becomes of a whole text: two related trees, or two related errors.
-/

namespace Formula

variable {R : Expr → Expr → Prop} {E : ParseError → ParseError → Prop} {o o' : Options}

-- ---------------------------------------------------------------------------
-- What has to be related
-- ---------------------------------------------------------------------------

inductive Part.Alike (R : Expr → Expr → Prop) : Part → Part → Prop
  | pending (text : String) : Part.Alike R (.pending text) (.pending text)
  | arguments : List.Forall₂ R es es' → Part.Alike R (.arguments es) (.arguments es')
  | tree : R e e' → Part.Alike R (.tree e) (.tree e')

def Part.mapTrees (f : Expr → Expr) : Part → Part
  | .pending text => .pending text
  | .arguments es => .arguments (es.map f)
  | .tree e => .tree (f e)

def ParseError.mapTrees (f : Expr → Expr) : ParseError → ParseError
  | .notOperand part => .notOperand (part.mapTrees f)
  | .leftover parts => .leftover (parts.map (Part.mapTrees f))
  | err => err

namespace ParseError

variable {err : ParseError} {f : Expr → Expr}

theorem trees_mapTrees (f : Expr → Expr) (err : ParseError) :
    (err.mapTrees f).trees = err.trees.map f := by
  have hpart (part : Part) : (part.mapTrees f).trees = part.trees.map f := by
    cases part <;> rfl
  cases err with
  | notOperand part => exact hpart part
  | leftover parts => simp only [mapTrees, trees, List.flatMap_map, List.map_flatMap, hpart]
  | _ => rfl

theorem shownWithin_mapTrees (hf : ∀ e, (f e).height = e.height) (err : ParseError)
    (levels : Nat) : (err.mapTrees f).shownWithin levels = (err.shownWithin levels).mapTrees f := by
  simp only [shownWithin, trees_mapTrees, List.all_map, Function.comp_def, hf]
  split <;> rfl

end ParseError

theorem Part.mapTrees_of_alike {f : Expr → Expr} (h : Part.Alike (fun e e' => f e = e') p p') :
    p.mapTrees f = p' := by
  cases h with
  | pending => rfl
  | arguments hes =>
    rw [← List.forall₂_map_left_iff, List.forall₂_eq_eq_eq] at hes
    rw [mapTrees, hes]
  | tree he => rw [mapTrees, he]

theorem Part.map_mapTrees_of_alike {f : Expr → Expr}
    (h : List.Forall₂ (Part.Alike fun e e' => f e = e') ps ps') : ps.map (mapTrees f) = ps' := by
  have hparts := h.imp fun _ _ => mapTrees_of_alike
  rwa [← List.forall₂_map_left_iff, List.forall₂_eq_eq_eq] at hparts

/-- `R` relates all that a reduction makes of related trees under the two options, and `E` the
errors in which it ends. -/
structure Alike (R : Expr → Expr → Prop) (E : ParseError → ParseError → Prop) (o o' : Options) :
    Prop where
  isNumeric : R e e' → e.isNumeric = e'.isNumeric
  isEuler : R e e' → e.isEuler = e'.isEuler
  const (d : Datum) : d.same d = true → R (.const d) (.const d)
  var (name : String) : R (.named name) (.named name)
  unary (op : UnaryOp) : R e e' → R (.unary op e) (.unary op e')
  binary : op ≠ .subtract → R l l' → R r r' → R (.binary op l r) (.binary op l' r')
  difference : R l l' → R r r' → R (Part.difference o l r) (Part.difference o' l' r')
  named (name : String) : name ∈ o.variableNames.texts ↔ name ∈ o'.variableNames.texts
  called (name : String) : name ∉ Builtin.constantNames →
    Option.Rel (fun d d' => ∀ es es', List.Forall₂ R es es' →
      Parallel E R ((Part.Callee.declared d).call (some es))
        ((Part.Callee.declared d').call (some es')))
    (o.functions.byName? (.text name)) (o'.functions.byName? (.text name))
  product : o.implicitProduct.holds = o'.implicitProduct.holds
  argumentCount (name : String) : E (.argumentCount name) (.argumentCount name)
  missingOperand (op : String) : E (.missingOperand op) (.missingOperand op)
  notOperand : Part.Alike R p p' → E (.notOperand p) (.notOperand p')
  leftover : List.Forall₂ (Part.Alike R) ps ps' → E (.leftover ps) (.leftover ps')

theorem alike_refl (o : Options) : Alike Eq (fun _ _ => True) o o where
  isNumeric := by
    rintro e _ rfl
    rfl
  isEuler := by
    rintro e _ rfl
    rfl
  const _ _ := rfl
  var _ := rfl
  unary := by
    rintro e _ op rfl
    rfl
  binary := by
    rintro op l _ r _ - rfl rfl
    rfl
  difference := by
    rintro l _ r _ rfl rfl
    rfl
  named _ := Iff.rfl
  called name _ := by
    cases o.functions.byName? (.text name) with
    | none => exact .none
    | some d =>
      refine .some fun es es' hes => ?_
      rw [List.forall₂_eq_eq_eq] at hes
      subst hes
      cases (Part.Callee.declared d).call (some es) with
      | ok e => exact .ok rfl
      | error err => exact .error trivial
  product := rfl
  argumentCount _ := trivial
  missingOperand _ := trivial
  notOperand _ := trivial
  leftover _ := trivial

/-- Two options under which a text is cut into the same tokens and refused for the same depth. -/
structure ReadAlike (R : Expr → Expr → Prop) (E : ParseError → ParseError → Prop)
    (o o' : Options) : Prop extends Alike R E o o' where
  vocabulary : o.vocabulary = o'.vocabulary
  isTooDeep : o.isTooDeep = o'.isTooDeep
  tooDeep (depth : Nat) : E (.tooDeep depth o.maxDepth) (.tooDeep depth o'.maxDepth)
  exhausted : E .exhausted .exhausted
  bracket (fault : Bracket.Fault) : E (.bracket fault) (.bracket fault)

-- ---------------------------------------------------------------------------
-- Parts
-- ---------------------------------------------------------------------------

namespace Part.Alike

variable {p p' : Part}

theorem isMinus (hp : p.Alike R p') : p.isMinus = p'.isMinus := by
  cases hp <;> rfl

theorem isEmptyList (hp : p.Alike R p') : p.isEmptyList = p'.isEmptyList := by
  cases hp with
  | arguments h => cases h <;> rfl
  | _ => rfl

end Part.Alike

def Part.Settled : Part → Prop
  | .pending text => text ∉ Builtin.constantNames
  | .arguments _ | .tree _ => True

theorem Part.settled_nameLeaf (vars : OrderedSet String) (p : Part) :
    (nameLeaf vars p).Settled := by
  cases p with
  | pending text =>
    rcases nameLeaf_pending vars text with ⟨-, h⟩ | ⟨-, e, -, h⟩ | ⟨-, hc, h⟩
    · rw [h]
      trivial
    · rw [h]
      trivial
    · rw [h]
      exact constant?_eq_none.mp hc
  | _ => trivial

namespace Alike

variable {p p' : Part} {ps ps' : List Part}

theorem operand? (h : Alike R E o o') (hp : p.Alike R p') :
    Option.Rel R p.operand? p'.operand? := by
  cases hp with
  | pending => exact .none
  | arguments => exact .none
  | tree he =>
    rw [Part.operand?, Part.operand?, h.isNumeric he]
    split
    · exact .some he
    · exact .none

theorem isOperand (h : Alike R E o o') (hp : p.Alike R p') : p.isOperand = p'.isOperand :=
  isSome_eq_of_rel (h.operand? hp)

theorem arguments? (h : Alike R E o o') (hp : p.Alike R p') :
    Option.Rel (List.Forall₂ R) p.arguments? p'.arguments? := by
  have hop := h.operand? hp
  cases hp with
  | pending => exact .none
  | arguments hes => exact .some hes
  | @tree e e' =>
    show Option.Rel _ ((Part.tree e).operand?.map ([·])) ((Part.tree e').operand?.map ([·]))
    generalize (Part.tree e).operand? = x, (Part.tree e').operand? = y at hop
    cases hop with
    | none => exact .none
    | some he => exact .some (.cons he .nil)

theorem requireOperand (h : Alike R E o o') (hp : p.Alike R p') :
    Parallel E R p.requireOperand p'.requireOperand := by
  have hop := h.operand? hp
  rw [Part.requireOperand, Part.requireOperand]
  generalize p.operand? = x, p'.operand? = y at hop
  cases hop with
  | none => exact .error (h.notOperand hp)
  | some he => exact .ok he

-- ---------------------------------------------------------------------------
-- Names and calls
-- ---------------------------------------------------------------------------

theorem whole (h : Alike R E o o') (n : Int) : R (.whole n) (.whole n) := h.const _ (by simp)

theorem nameLeaf (h : Alike R E o o') (hp : p.Alike R p') :
    (Part.nameLeaf o.variableNames.texts p).Alike R (Part.nameLeaf o'.variableNames.texts p') := by
  cases hp with
  | pending text =>
    simp only [Part.nameLeaf, h.named]
    split
    · exact .tree (h.var _)
    · split
      · rename_i e hc
        obtain ⟨-, rfl | rfl⟩ := Part.constant?_eq_some hc
        · exact .tree (h.unary .exp (h.whole 1))
        · exact .tree (h.const _ (by decide +kernel))
      · exact .pending text
  | arguments hes => exact .arguments hes
  | tree he => exact .tree he

theorem builtin (h : Alike R E o o') (f : Builtin) (hes : List.Forall₂ R es es') :
    Option.Rel R (f.call? es) (f.call? es') := by
  obtain _ | ⟨hx, _ | ⟨hy, _ | _⟩⟩ := hes
  case nil => cases f <;> exact .none
  case cons.nil =>
    cases f with
    | unary op => exact .some (h.unary op hx)
    | root => exact .some (h.binary nofun hx (h.const _ (by decide +kernel)))
    | naturalLog => exact .some (h.binary nofun (h.unary .exp (h.whole 1)) hx)
    | binaryLog => exact .some (h.binary nofun (h.whole 2) hx)
    | log => exact .some (h.binary nofun (h.whole 10) hx)
  case cons.cons.nil =>
    cases f with
    | log => exact .some (h.binary nofun hx hy)
    | _ => exact .none
  case cons.cons.cons => cases f <;> exact .none

def Callee (R : Expr → Expr → Prop) (E : ParseError → ParseError → Prop) (c c' : Part.Callee) :
    Prop :=
  ∀ args args', Option.Rel (List.Forall₂ R) args args' → Parallel E R (c.call args) (c'.call args')

theorem callee? (h : Alike R E o o') (hp : p.Alike R p') (hsettled : p.Settled) :
    Option.Rel (Callee R E) (Part.callee? o.functions p) (Part.callee? o'.functions p') := by
  cases hp with
  | arguments => exact .none
  | tree => exact .none
  | pending text =>
    have hcalled := h.called text hsettled
    rw [Part.callee?, Part.callee?]
    generalize o.functions.byName? (.text text) = d, o'.functions.byName? (.text text) = d'
      at hcalled
    cases hcalled with
    | some hd =>
      refine .some fun args args' hargs => ?_
      cases hargs with
      | none => exact hd [] [] .nil
      | some hes => exact hd _ _ hes
    | none =>
      cases hf : Builtin.function? text with
      | none => exact .none
      | some f =>
        refine .some fun args args' hargs => ?_
        cases hargs with
        | none => exact .error (h.argumentCount text)
        | @some es es' hes =>
          have hcall := h.builtin f hes
          show Parallel E R (Part.Callee.call (some es) (.builtin text f))
            (Part.Callee.call (some es') (.builtin text f))
          simp only [Part.Callee.call, Option.bind_some]
          generalize f.call? es = x, f.call? es' = y at hcall
          cases hcall with
          | none => exact .error (h.argumentCount text)
          | some he => exact .ok he

theorem makeCalls (h : Alike R E o o') (hps : List.Forall₂ (Part.Alike R) ps ps')
    (hsettled : ∀ p ∈ ps, p.Settled) :
    Parallel E (List.Forall₂ (Part.Alike R)) (Part.makeCalls o.functions ps)
      (Part.makeCalls o'.functions ps') := by
  fun_induction Part.makeCalls o.functions ps generalizing ps' with
  | case1 =>
    cases hps
    exact .ok .nil
  | case2 part rest hc ih =>
    obtain _ | ⟨hp, hrest⟩ := hps
    obtain ⟨hpart, hlater⟩ := List.forall_mem_cons.mp hsettled
    have hc' := eq_none_of_rel (hc ▸ h.callee? hp hpart)
    simp only [Part.makeCalls.eq_def o'.functions (_ :: _), hc']
    exact (ih hrest hlater).bind fun later later' hl => .ok (.cons hp hl)
  | case3 part callee hc =>
    obtain _ | ⟨hp, _ | _⟩ := hps
    obtain ⟨hpart, -⟩ := List.forall_mem_cons.mp hsettled
    obtain ⟨callee', hc', hcallee⟩ := exists_of_rel (hc ▸ h.callee? hp hpart)
    simp only [Part.makeCalls.eq_def o'.functions (_ :: _), hc']
    exact (hcallee none none .none).bind fun e e' he => .ok (.cons (.tree he) .nil)
  | case4 part callee hc next rest es hn ih =>
    obtain _ | ⟨hp, _ | ⟨hnext, hrest⟩⟩ := hps
    obtain ⟨hpart, hlater⟩ := List.forall_mem_cons.mp hsettled
    obtain ⟨callee', hc', hcallee⟩ := exists_of_rel (hc ▸ h.callee? hp hpart)
    obtain ⟨es', hn', hes⟩ := exists_of_rel (hn ▸ h.arguments? hnext)
    simp only [Part.makeCalls.eq_def o'.functions (_ :: _), hc', hn']
    refine (hcallee _ _ (.some hes)).bind fun e e' he => ?_
    exact (ih hrest (List.forall_mem_cons.mp hlater).2).bind fun later later' hl =>
      .ok (.cons (.tree he) hl)
  | case5 part callee hc next rest hn ih =>
    obtain _ | ⟨hp, _ | ⟨hnext, hrest⟩⟩ := hps
    obtain ⟨hpart, hlater⟩ := List.forall_mem_cons.mp hsettled
    obtain ⟨callee', hc', hcallee⟩ := exists_of_rel (hc ▸ h.callee? hp hpart)
    have hn' := eq_none_of_rel (hn ▸ h.arguments? hnext)
    rw [Part.makeCalls.eq_def o'.functions (_ :: _)]
    simp only [hc', hn']
    refine (hcallee none none .none).bind fun e e' he => ?_
    exact (ih (.cons hnext hrest) hlater).bind fun later later' hl => .ok (.cons (.tree he) hl)

theorem applyCalls (h : Alike R E o o') (hps : List.Forall₂ (Part.Alike R) ps ps')
    (hsettled : ∀ p ∈ ps, p.Settled) :
    Parallel E (List.Forall₂ (Part.Alike R)) (Part.applyCalls o.functions ps)
      (Part.applyCalls o'.functions ps') := by
  refine (h.makeCalls hps hsettled).bind fun called called' hcalled =>
    .ok (List.rel_filter ?_ hcalled)
  intro p p' hp
  simp [hp.isEmptyList]

-- ---------------------------------------------------------------------------
-- Operators
-- ---------------------------------------------------------------------------

theorem applySigns (h : Alike R E o o') (hps : List.Forall₂ (Part.Alike R) ps ps') (b : Bool) :
    Parallel E (List.Forall₂ (Part.Alike R)) (Part.applySigns b ps) (Part.applySigns b ps') := by
  fun_induction Part.applySigns b ps generalizing ps' with
  | case1 =>
    cases hps
    exact .ok .nil
  | case2 b part hm =>
    obtain _ | ⟨hp, _ | _⟩ := hps
    rw [hp.isMinus] at hm
    simp only [Part.applySigns, hm, if_true]
    exact .ok (.cons hp .nil)
  | case3 b part hm next rest e hn ih =>
    obtain _ | ⟨hp, _ | ⟨hnext, hrest⟩⟩ := hps
    rw [hp.isMinus] at hm
    obtain ⟨e', hn', he⟩ := exists_of_rel (hn ▸ h.operand? hnext)
    simp only [Part.applySigns, hm, if_true, hn']
    exact (ih hrest).bind fun later later' hl => .ok (.cons (.tree (h.unary .negate he)) hl)
  | case4 b part hm next rest hn =>
    obtain _ | ⟨hp, _ | ⟨hnext, hrest⟩⟩ := hps
    rw [hp.isMinus] at hm
    have hn' := eq_none_of_rel (hn ▸ h.operand? hnext)
    simp only [Part.applySigns, hm, if_true, hn']
    exact .error (h.notOperand hnext)
  | case5 b part rest hm ih =>
    obtain _ | ⟨hp, hrest⟩ := hps
    rw [hp.isMinus] at hm
    rw [h.isOperand hp] at ih ⊢
    simp only [Part.applySigns.eq_def b (_ :: _), hm, Bool.false_eq_true, if_false]
    exact (ih hrest).bind fun later later' hl => .ok (.cons hp hl)

def Rule (R : Expr → Expr → Prop) (rule rule' : Part.Rule) : Prop :=
  ∀ op, Option.Rel (fun build build' => ∀ l l' r r', R l l' → R r r' → R (build l r) (build' l' r'))
    (rule op) (rule' op)

theorem powerRule (h : Alike R E o o') : Rule R Part.powerRule Part.powerRule := by
  intro op
  unfold Part.powerRule
  split
  · refine .some fun l l' r r' hl hr => ?_
    simp only [h.isEuler hl]
    split
    · exact h.unary .exp hr
    · exact h.binary nofun hl hr
  · exact .none

theorem productRule (h : Alike R E o o') : Rule R Part.productRule Part.productRule := by
  intro op
  unfold Part.productRule
  split
  · exact .some fun l l' r r' hl hr => h.binary nofun hl hr
  · exact .some fun l l' r r' hl hr => h.binary nofun hl hr
  · exact .none

theorem sumRule (h : Alike R E o o') :
    Rule R (Part.sumRule o.minusIsNegative) (Part.sumRule o'.minusIsNegative) := by
  intro op
  unfold Part.sumRule
  split
  · exact .some fun l l' r r' hl hr => h.binary nofun hl hr
  · exact .some fun l l' r r' hl hr => h.difference hl hr
  · exact .none

theorem operator? {rule rule' : Part.Rule} (hrule : Rule R rule rule') (hp : p.Alike R p') :
    Option.Rel (fun x x' => x.1 = x'.1 ∧
        ∀ l l' r r', R l l' → R r r' → R (x.2 l r) (x'.2 l' r'))
      (Part.operator? rule p) (Part.operator? rule' p') := by
  cases hp with
  | arguments => exact .none
  | tree => exact .none
  | pending text =>
    have hop := hrule text
    rw [Part.operator?, Part.operator?]
    generalize rule text = x, rule' text = y at hop
    cases hop with
    | none => exact .none
    | some hbuild => exact .some ⟨rfl, hbuild⟩

theorem foldFrom {rule rule' : Part.Rule} (h : Alike R E o o') (hrule : Rule R rule rule')
    (hps : List.Forall₂ (Part.Alike R) ps ps') {left left' : Option Part}
    (hleft : Option.Rel (Part.Alike R) left left') :
    Parallel E (List.Forall₂ (Part.Alike R)) (Part.foldFrom rule left ps)
      (Part.foldFrom rule' left' ps') := by
  have hlist : ∀ {left left' : Option Part}, Option.Rel (Part.Alike R) left left' →
      List.Forall₂ (Part.Alike R) left.toList left'.toList := by
    rintro _ _ (hl | _)
    · exact .cons hl .nil
    · exact .nil
  fun_induction Part.foldFrom rule left ps generalizing left' ps' with
  | case1 left =>
    cases hps
    exact .ok (hlist hleft)
  | case2 left part rest hop ih =>
    obtain _ | ⟨hp, hrest⟩ := hps
    have hop' := eq_none_of_rel (hop ▸ operator? hrule hp)
    rw [Part.foldFrom.eq_def rule' left' (_ :: _)]
    simp only [hop']
    exact (ih hrest (.some hp)).bind fun later later' hl => .ok (List.rel_append (hlist hleft) hl)
  | case3 part op build hop left right rest ih =>
    obtain _ | ⟨hp, _ | ⟨hright, hrest⟩⟩ := hps
    obtain ⟨hl⟩ := hleft
    obtain ⟨⟨op', build'⟩, hop', rfl, hbuild⟩ := exists_of_rel (hop ▸ operator? hrule hp)
    rw [Part.foldFrom.eq_def rule' (some _) (_ :: _)]
    simp only [hop']
    refine (h.requireOperand hl).bind fun l l' hl => ?_
    refine (h.requireOperand hright).bind fun r r' hr => ?_
    exact ih l r hrest (.some (.tree (hbuild l l' r r' hl hr)))
  | case4 left part rest op build hop hn =>
    obtain _ | ⟨hp, hrest⟩ := hps
    obtain ⟨⟨op', build'⟩, hop', rfl, -⟩ := exists_of_rel (hop ▸ operator? hrule hp)
    rw [Part.foldFrom.eq_def rule' left' (_ :: _)]
    simp only [hop']
    -- The left side lacks its operand on both sides, or the right one does.
    cases hleft with
    | none => exact .error (h.missingOperand op)
    | some hl =>
      cases hrest with
      | nil => exact .error (h.missingOperand op)
      | cons => exact (hn _ _ _ rfl rfl).elim

theorem fold {rule rule' : Part.Rule} (h : Alike R E o o') (hrule : Rule R rule rule')
    (hps : List.Forall₂ (Part.Alike R) ps ps') :
    Parallel E (List.Forall₂ (Part.Alike R)) (Part.fold rule ps) (Part.fold rule' ps') :=
  h.foldFrom hrule hps .none

theorem joinFrom (h : Alike R E o o') (hp : p.Alike R p')
    (hps : List.Forall₂ (Part.Alike R) ps ps') :
    List.Forall₂ (Part.Alike R) (Part.joinFrom p ps) (Part.joinFrom p' ps') := by
  fun_induction Part.joinFrom p ps generalizing p' ps' with
  | case1 left =>
    cases hps
    exact .cons hp .nil
  | case2 left part rest l r hr hl ih =>
    obtain _ | ⟨hpart, hrest⟩ := hps
    obtain ⟨l', hl', hl⟩ := exists_of_rel (hl ▸ h.operand? hp)
    obtain ⟨r', hr', hr⟩ := exists_of_rel (hr ▸ h.operand? hpart)
    have hop : BinaryOp.multiply ≠ .subtract := by decide
    simp only [Part.joinFrom, hl', hr']
    exact ih (.tree (h.binary hop hl hr)) hrest
  | case3 left part rest hn ih =>
    obtain _ | @⟨_, part', _, rest', hpart, hrest⟩ := hps
    have hl := h.operand? hp
    have hr := h.operand? hpart
    rw [Part.joinFrom]
    generalize left.operand? = x, p'.operand? = x', part.operand? = y, part'.operand? = y' at *
    cases hl with
    | none => exact .cons hp (ih hpart hrest)
    | some =>
      cases hr with
      | none => exact .cons hp (ih hpart hrest)
      | some => exact (hn _ _ rfl rfl).elim

theorem join (h : Alike R E o o') (hps : List.Forall₂ (Part.Alike R) ps ps') :
    List.Forall₂ (Part.Alike R) (Part.join ps) (Part.join ps') := by
  cases hps with
  | nil => exact .nil
  | cons hp hps => exact h.joinFrom hp hps

theorem applyOperators (h : Alike R E o o') (hps : List.Forall₂ (Part.Alike R) ps ps') :
    Parallel E (List.Forall₂ (Part.Alike R)) (Part.applyOperators o ps)
      (Part.applyOperators o' ps') := by
  refine (h.applySigns hps false).bind fun ps₁ ps₁' h₁ => ?_
  refine (h.fold h.powerRule h₁).bind fun ps₂ ps₂' h₂ => ?_
  have h₃ : List.Forall₂ (Part.Alike R) (if o.implicitProduct.holds then Part.join ps₂ else ps₂)
      (if o'.implicitProduct.holds then Part.join ps₂' else ps₂') := by
    rw [h.product]
    split
    · exact h.join h₂
    · exact h₂
  exact (h.fold h.productRule h₃).bind fun ps₄ ps₄' h₄ => h.fold h.sumRule h₄

theorem single (h : Alike R E o o') (hps : List.Forall₂ (Part.Alike R) ps ps') :
    Parallel E R (Part.single ps) (Part.single ps') := by
  obtain _ | ⟨hp, _ | ⟨hp', hps⟩⟩ := hps
  · exact .error (h.leftover .nil)
  · cases hx : Part.operand? _ with
    | none =>
      have hy := eq_none_of_rel (hx ▸ h.operand? hp)
      simp only [Part.single, hx, hy]
      exact .error (h.leftover (.cons hp .nil))
    | some e =>
      obtain ⟨e', hy, he⟩ := exists_of_rel (hx ▸ h.operand? hp)
      simp only [Part.single, hx, hy]
      exact .ok he
  · exact .error (h.leftover (.cons hp (.cons hp' hps)))

/-- Related parts are reduced to related trees, or refused for related reasons. -/
theorem reduce (h : Alike R E o o') (hps : List.Forall₂ (Part.Alike R) ps ps') :
    Parallel E R (Part.reduce o ps) (Part.reduce o' ps') := by
  have hleaves := List.rel_map (fun _ _ hp => h.nameLeaf hp) hps
  have hsettled : ∀ p ∈ Part.nameLeaves o.variableNames.texts ps, p.Settled :=
    List.forall_mem_map.mpr fun p _ => Part.settled_nameLeaf _ p
  refine (h.applyCalls hleaves hsettled).bind fun called called' hcalled => ?_
  exact (h.applyOperators hcalled).bind fun out out' hout => h.single hout

end Alike

-- ---------------------------------------------------------------------------
-- Texts
-- ---------------------------------------------------------------------------

theorem Alike.ofToken (h : Alike R E o o') (t : Token) :
    (Parser.ofToken t).Alike R (Parser.ofToken t) := by
  unfold Parser.ofToken
  split
  · exact .tree (h.const _ (by simpa [Number.same] using Decimal.ofNumeral_beq_self t.text))
  · exact .pending _
  · exact .pending _
  · exact .pending _

theorem Part.alike_ofGroup (hes : List.Forall₂ R es es') :
    (Parser.ofGroup es).Alike R (Parser.ofGroup es') := by
  obtain _ | ⟨he, _ | ⟨he', hes⟩⟩ := hes
  · exact .arguments .nil
  · exact .tree he
  · exact .arguments (.cons he (.cons he' hes))

namespace ReadAlike

variable {E' : ParseError → ParseError → Prop}

theorem segmentParts (h : ReadAlike R E o o') {read read' : List Char → Except ParseError Expr}
    (hread : ∀ text, Parallel E' R (read text) (read' text)) (seg : Bracket.Segment) :
    Parallel E' (List.Forall₂ (Part.Alike R)) ((Parser.mk o o.vocabulary).segmentParts read seg)
      ((Parser.mk o' o'.vocabulary).segmentParts read' seg) := by
  cases seg with
  | plain n span =>
    simp only [Parser.segmentParts, h.vocabulary]
    refine .ok (List.forall₂_map_left_iff.mpr (List.forall₂_map_right_iff.mpr ?_))
    exact List.forall₂_same.mpr fun t _ => h.toAlike.ofToken t
  | group b n inside =>
    have hes : List.Forall₂ (fun a b => Parallel E' R (read a) (read' b))
        (Bracket.arguments inside) (Bracket.arguments inside) :=
      List.forall₂_same.mpr fun text _ => hread text
    exact (Parallel.mapM hes).bind fun es es' hes => .ok (.cons (Part.alike_ofGroup hes) .nil)

/-- Under both options a text has related trees or is refused for related reasons. -/
theorem readAt (h : ReadAlike R E o o')
    (hshown : ∀ at' ≤ depth + room, ∀ err err', E err err' →
      E' (err.shownWithin (shown at')) (err'.shownWithin (shown at'))) (text : List Char) :
    Parallel E' R ((Parser.mk o o.vocabulary).readAt shown room depth text)
      ((Parser.mk o' o'.vocabulary).readAt shown room depth text) := by
  have hhere := hshown depth (Nat.le_add_right _ _)
  induction room generalizing depth text with
  | zero =>
    simp only [Parser.readAt, h.isTooDeep]
    split
    · exact .error (hhere _ _ (h.tooDeep depth))
    · exact .error (hhere _ _ h.exhausted)
  | succ room ih =>
    simp only [Parser.readAt, h.isTooDeep]
    split
    · exact .error (hhere _ _ (h.tooDeep depth))
    cases hs : Bracket.segments text with
    | error fault => exact .error (hhere _ _ (h.bracket fault))
    | ok segs =>
      have hinside : ∀ text, Parallel E' R
          ((Parser.mk o o.vocabulary).readAt shown room (depth + 1) text)
          ((Parser.mk o' o'.vocabulary).readAt shown room (depth + 1) text) := by
        rw [← Nat.succ_add_eq_add_succ] at hshown
        exact fun text => ih hshown text (hshown _ (Nat.le_add_right _ _))
      have hparts : List.Forall₂ (fun seg seg' => Parallel E' (List.Forall₂ (Part.Alike R))
          ((Parser.mk o o.vocabulary).segmentParts (Parser.readAt _ shown room (depth + 1)) seg)
          ((Parser.mk o' o'.vocabulary).segmentParts (Parser.readAt _ shown room (depth + 1)) seg'))
          segs segs :=
        List.forall₂_same.mpr fun seg _ => h.segmentParts hinside seg
      refine (Parallel.mapM hparts).bind fun parts parts' hparts => ?_
      exact (h.reduce (List.rel_flatten hparts)).mapError hhere

theorem parseWithin {l : Parser.Limits} (h : ReadAlike R E o o')
    (hshown : ∀ depth ≤ l.brackets, ∀ err err', E err err' →
      E' (err.shownWithin (l.shown depth)) (err'.shownWithin (l.shown depth)))
    (hcheck : Parallel E' Eq (checkDeclarations o.variableNames o.functions.signatures)
      (checkDeclarations o'.variableNames o'.functions.signatures)) (text : List Char) :
    Parallel E' R (parseWithin l o text) (parseWithin l o' text) := by
  have hparser : Parallel E' (fun p p' => p = ⟨o, o.vocabulary⟩ ∧ p' = ⟨o', o'.vocabulary⟩)
      (Parser.ofOptions o) (Parser.ofOptions o') :=
    hcheck.bind fun _ _ _ => .ok ⟨rfl, rfl⟩
  refine hparser.bind fun p p' hp => ?_
  obtain ⟨rfl, rfl⟩ := hp
  exact h.readAt (by rwa [Nat.zero_add]) text

end ReadAlike

end Formula
