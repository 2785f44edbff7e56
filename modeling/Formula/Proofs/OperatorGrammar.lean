import Formula.Proofs.Grouped

/-!
# The grammar of operators

Names and calls apart, a formula is a sum of products of runs of powers. This
module writes that grammar down as rules that derive a tree from a list of parts,
and shows that the passes for operators return a tree exactly when the rules
derive it. So every list has at most one tree, and a list outside the grammar is
refused.

Between the grammar and the passes stand lists whose groups have been read up to
one level: `Reading D O` says that every operand of such a list was read from its
group by the rules `D`, and that all other parts are still what they were.
-/

namespace Formula.Part

variable {o : Options} {rule : Rule} {D D' : Bool → List Part → Expr → Prop}
  {O O' : Bool → Part → Prop}

-- ---------------------------------------------------------------------------
-- Rules
-- ---------------------------------------------------------------------------

/-- A power of e is an exponential. -/
def raise (l r : Expr) : Expr :=
  if l.same .euler then .unary .exp r else .binary .power l r

def difference (o : Options) (l r : Expr) : Expr :=
  if o.minusIsNegative.holds then .binary .add l (.unary .negate r) else .binary .subtract l r

inductive Node : List Part → Expr → Prop
  | tree : e.isNumeric = true → Node [.tree e] e

inductive Factor : List Part → Expr → Prop
  | node : Node ps e → Factor ps e
  | negated : Node ps e → Factor (.pending "-" :: ps) (.unary .negate e)

inductive Power : List Part → Expr → Prop
  | factor : Factor ps e → Power ps e
  | power : Power ls l → Factor rs r → Power (ls ++ .pending "^" :: rs) (raise l r)

/-- A power without a sign in front, as it may follow another one. -/
inductive PlainPower : List Part → Expr → Prop
  | node : Node ps e → PlainPower ps e
  | power : PlainPower ls l → Factor rs r → PlainPower (ls ++ .pending "^" :: rs) (raise l r)

/-- Powers side by side, if products may go without a sign. -/
inductive Run (o : Options) : List Part → Expr → Prop
  | power : Power ps e → Run o ps e
  | times : o.implicitProduct.holds = true → Run o ls l → PlainPower rs r →
      Run o (ls ++ rs) (.binary .multiply l r)

inductive Product (o : Options) : List Part → Expr → Prop
  | run : Run o ps e → Product o ps e
  | times : Product o ls l → Run o rs r →
      Product o (ls ++ .pending "*" :: rs) (.binary .multiply l r)
  | divided : Product o ls l → Run o rs r →
      Product o (ls ++ .pending "/" :: rs) (.binary .divide l r)

inductive Sum (o : Options) : List Part → Expr → Prop
  | product : Product o ps e → Sum o ps e
  | plus : Sum o ls l → Product o rs r → Sum o (ls ++ .pending "+" :: rs) (.binary .add l r)
  | minus : Sum o ls l → Product o rs r → Sum o (ls ++ .pending "-" :: rs) (difference o l r)

-- ---------------------------------------------------------------------------
-- One level at a time
-- ---------------------------------------------------------------------------

/-- Operands with operators of one rule between them, taken from left to right. -/
inductive Chain (rule : Rule) (First Rest : List Part → Expr → Prop) : List Part → Expr → Prop
  | first : First ps e → Chain rule First Rest ps e
  | operator : Chain rule First Rest ls l → rule op = some build → Rest rs r →
      Chain rule First Rest (ls ++ .pending op :: rs) (build l r)

inductive Row (First Rest : List Part → Expr → Prop) : List Part → Expr → Prop
  | first : First ps e → Row First Rest ps e
  | times : Row First Rest ls l → Rest rs r → Row First Rest (ls ++ rs) (.binary .multiply l r)

/-- The group of an operand is what `D` reads it from. Any other part stands for
itself where `O` allows it. -/
inductive Reading (D : Bool → List Part → Expr → Prop) (O : Bool → Part → Prop) :
    Bool → List Part → Part → Prop
  | operand : e.isNumeric = true → D b ls e → Reading D O b ls (.tree e)
  | other : p.operand? = none → O b p → Reading D O b [p] p

def Rule.Numeric (rule : Rule) : Prop :=
  ∀ op build l r, rule op = some build → (build l r).isNumeric = true

theorem Reading.mono (h : Reading D O b ls p) (hD : ∀ b ls e, D b ls e → D' b ls e)
    (hO : ∀ b p, O b p → O' b p) : Reading D' O' b ls p := by
  cases h with
  | operand he hd => exact .operand he (hD _ _ _ hd)
  | other hp ho => exact .other hp (hO _ _ ho)

theorem Reading.of_operand (h : Reading D O b ls p) (hp : p.operand? = some e) : D b ls e := by
  obtain ⟨rfl, -⟩ := operand?_eq_some.mp hp
  cases h with
  | operand _ hd => exact hd
  | other hn => rw [hn] at hp; cases hp

theorem Reading.of_pending (h : Reading D O b ls (.pending text)) : ls = [.pending text] := by
  cases h with
  | other => rfl

theorem Folded.reading (hrule : rule.Numeric) (h : Folded rule ms p) (b : Bool) :
    endsOperand b ms = p.isOperand ∧
      ∀ ls, Grouped (Reading D O) b ls ms →
        Reading (fun b => Chain rule (D b) (D false)) O b ls p := by
  induction h with
  | part =>
    refine ⟨rfl, fun ls hg => ?_⟩
    cases Grouped.single_iff.mp hg with
    | operand he hd => exact .operand he (.first hd)
    | other hp ho => exact .other hp ho
  | @operator ms l x p op build y r _ hx hp hy ih =>
    obtain ⟨rfl, hop⟩ := operator?_eq_some.mp hp
    have hn := hrule op build x y hop
    have hr : r.isOperand = true := by simp [isOperand, hy]
    refine ⟨by simp [endsOperand, hr, isOperand_tree hn], fun ls hg => ?_⟩
    obtain ⟨ls, rs, rfl, hl, hrs⟩ := hg.split
    obtain ⟨gs, rs, rfl, hgs, hrs⟩ := hrs.split_cons
    rw [hgs.of_pending, List.singleton_append]
    have hy := (Grouped.single_iff.mp hrs).of_operand hy
    exact .operand hn (.operator ((ih.2 _ hl).of_operand hx) hop hy)

theorem Chain.mono {A A' B B' : List Part → Expr → Prop} (h : Chain rule A B ls e)
    (hA : ∀ ls e, A ls e → A' ls e) (hB : ∀ ls e, B ls e → B' ls e) : Chain rule A' B' ls e := by
  induction h with
  | first h => exact .first (hA _ _ h)
  | operator _ hop hr ih => exact ih.operator hop (hB _ _ hr)

theorem Chain.isNumeric {A B : List Part → Expr → Prop} (hrule : rule.Numeric)
    (hA : ∀ ls e, A ls e → e.isNumeric = true) (h : Chain rule A B ls e) : e.isNumeric = true := by
  cases h with
  | first h => exact hA _ _ h
  | operator _ hop _ => exact hrule _ _ _ _ hop

theorem Chain.folded (hrule : rule.Numeric) (hD : ∀ b ls e, D b ls e → e.isNumeric = true)
    (hO : ∀ op, (rule op).isSome → O true (.pending op))
    (h : Chain rule (D b) (D false) ls e) :
    ∃ ms, Grouped (Reading D O) b ls ms ∧ Folded rule ms (.tree e) ∧ endsOperand b ms = true := by
  induction h with
  | first hd =>
    have he := hD _ _ _ hd
    exact ⟨[.tree _], .single (.operand he hd), .part rfl, isOperand_tree he⟩
  | @operator ls l op build rs r hl hop hr ih =>
    obtain ⟨ms, hm, hk, hend⟩ := ih
    have he := hD _ _ _ hr
    have hp : operator? rule (.pending op) = some (op, build) := operator?_eq_some.mpr ⟨rfl, hop⟩
    refine ⟨ms ++ [.pending op, .tree r], hm.append ?_,
      hk.operator (operand?_tree (hl.isNumeric hrule (hD b))) hp (operand?_tree he),
      by simp [endsOperand, isOperand_tree he]⟩
    rw [hend]
    exact .cons_part (.other rfl (hO op (by rw [hop]; rfl))) (.single (.operand he hr))

theorem Reading.folded (hrule : rule.Numeric) (hD : ∀ b ls e, D b ls e → e.isNumeric = true)
    (hO : ∀ op, (rule op).isSome → O' true (.pending op))
    (hn : ∀ b p, O b p → O' b p ∧ operator? rule p = none)
    (h : Reading (fun b => Chain rule (D b) (D false)) O b ls p) :
    ∃ ms, Grouped (Reading D O') b ls ms ∧ Folded rule ms p ∧ endsOperand b ms = p.isOperand := by
  cases h with
  | operand he hc =>
    obtain ⟨ms, hm, hk, hend⟩ := hc.folded hrule hD hO
    exact ⟨ms, hm, hk, hend.trans (isOperand_tree he).symm⟩
  | other hp ho =>
    obtain ⟨ho', hr⟩ := hn b p ho
    exact ⟨[p], .single (.other hp ho'), .part hr, rfl⟩

theorem Joined.reading (h : Joined ms p) (b : Bool) :
    endsOperand b ms = p.isOperand ∧
      ∀ ls, Grouped (Reading D O) b ls ms → Reading (fun b => Row (D b) (D true)) O b ls p := by
  induction h with
  | part =>
    refine ⟨rfl, fun ls hg => ?_⟩
    cases Grouped.single_iff.mp hg with
    | operand he hd => exact .operand he (.first hd)
    | other hp ho => exact .other hp ho
  | @product ms l x y r _ hx hy ih =>
    have hl : l.isOperand = true := by simp [isOperand, hx]
    have hr : r.isOperand = true := by simp [isOperand, hy]
    refine ⟨by simp only [endsOperand_append, endsOperand, hr]; rfl, fun ls hg => ?_⟩
    obtain ⟨ls, rs, rfl, hl', hrs⟩ := hg.split
    rw [ih.1, hl] at hrs
    have hy := (Grouped.single_iff.mp hrs).of_operand hy
    exact .operand rfl (.times ((ih.2 _ hl').of_operand hx) hy)

theorem Row.mono {A A' B B' : List Part → Expr → Prop} (h : Row A B ls e)
    (hA : ∀ ls e, A ls e → A' ls e) (hB : ∀ ls e, B ls e → B' ls e) : Row A' B' ls e := by
  induction h with
  | first h => exact .first (hA _ _ h)
  | times _ hr ih => exact ih.times (hB _ _ hr)

theorem Row.isNumeric {A B : List Part → Expr → Prop} (hA : ∀ ls e, A ls e → e.isNumeric = true)
    (h : Row A B ls e) : e.isNumeric = true := by
  cases h with
  | first h => exact hA _ _ h
  | times => rfl

theorem Row.joined (hD : ∀ b ls e, D b ls e → e.isNumeric = true) (h : Row (D b) (D true) ls e) :
    ∃ ms, Grouped (Reading D O) b ls ms ∧ Joined ms (.tree e) ∧ endsOperand b ms = true := by
  induction h with
  | first hd =>
    have he := hD _ _ _ hd
    exact ⟨[.tree _], .single (.operand he hd), .part, isOperand_tree he⟩
  | @times ls l rs r hl hr ih =>
    obtain ⟨ms, hm, hk, hend⟩ := ih
    have he := hD _ _ _ hr
    refine ⟨ms ++ [.tree r], hm.append ?_,
      hk.product (operand?_tree (hl.isNumeric (hD b))) (operand?_tree he),
      by simp [endsOperand, isOperand_tree he]⟩
    rw [hend]
    exact .single (.operand he hr)

theorem Reading.joined (hD : ∀ b ls e, D b ls e → e.isNumeric = true)
    (h : Reading (fun b ls e => b = false ∧ Row (D b) (D true) ls e) O b ls p) :
    ∃ ms, Grouped (Reading D O) b ls ms ∧ JoinedAll b ms p ∧ endsOperand b ms = p.isOperand := by
  cases h with
  | operand he hr =>
    obtain ⟨rfl, hr⟩ := hr
    obtain ⟨ms, hm, hk, hend⟩ := hr.joined hD
    exact ⟨ms, hm, ⟨hk, nofun⟩, hend.trans (isOperand_tree he).symm⟩
  | other hp ho =>
    exact ⟨[p], .single (.other hp ho), ⟨.part, fun _ => isOperand_eq_false.mpr hp⟩, rfl⟩

-- ---------------------------------------------------------------------------
-- Signs
-- ---------------------------------------------------------------------------

/-- What an operand is read from: after another operand it has no sign. -/
def signed : Bool → List Part → Expr → Prop
  | true => Node
  | false => Factor

theorem Node.isNumeric (h : Node ps e) : e.isNumeric = true := by
  cases h; assumption

theorem signed_isNumeric (b : Bool) (ls : List Part) (e : Expr) (h : signed b ls e) :
    e.isNumeric = true := by
  cases b with
  | true => exact Node.isNumeric h
  | false => cases h with
    | node hn => exact hn.isNumeric
    | negated => rfl

theorem isMinus_iff {p : Part} : p.isMinus = true ↔ p = .pending "-" := by
  cases p <;> simp [isMinus]

theorem Signed.reading (h : Signed b ls p) : Reading signed (fun _ _ => True) b ls p := by
  cases h with
  | part =>
    cases hp : p.operand? with
    | some e =>
      obtain ⟨rfl, he⟩ := operand?_eq_some.mp hp
      cases b with
      | true => exact .operand he (.tree he)
      | false => exact .operand he (.node (.tree he))
    | none => exact .other hp trivial
  | negated hm hq =>
    obtain ⟨rfl, he⟩ := operand?_eq_some.mp hq
    rw [isMinus_iff.mp hm]
    exact .operand rfl (.negated (.tree he))

theorem Reading.signed (hO : ∀ b p, O b p → b = true) (h : Reading signed O b ls p) :
    Signed b ls p ∧ (p.isMinus = true → b = true) := by
  cases h with
  | other _ ho => exact ⟨.part, fun _ => hO _ _ ho⟩
  | operand _ hd =>
    refine ⟨?_, nofun⟩
    cases b with
    | true => cases hd; exact .part
    | false =>
      cases hd with
      | node hn => cases hn; exact .part
      | negated hn => cases hn with
        | tree he => exact .negated rfl (operand?_tree he)

-- ---------------------------------------------------------------------------
-- The levels are those of the grammar
-- ---------------------------------------------------------------------------

theorem isEuler_eq_same (e : Expr) : e.isEuler = e.same .euler := by
  cases e with
  | unary op e => cases op <;> cases e <;> simp [Expr.isEuler, Expr.same, Expr.euler, Expr.whole]
  | _ => simp [Expr.isEuler, Expr.same, Expr.euler]

theorem powerRule_power : powerRule "^" = some raise := by
  refine congrArg some (funext fun l => funext fun r => ?_)
  rw [raise, isEuler_eq_same]

theorem powerRule_eq_some : powerRule op = some build ↔ op = "^" ∧ build = raise := by
  constructor
  · intro h
    have hop : op = "^" := by
      unfold powerRule at h
      split at h
      · rfl
      · cases h
    subst hop
    exact ⟨rfl, Option.some.inj (h.symm.trans powerRule_power)⟩
  · rintro ⟨rfl, rfl⟩
    exact powerRule_power

theorem productRule_eq_some : productRule op = some build ↔
    op = "*" ∧ build = .binary .multiply ∨ op = "/" ∧ build = .binary .divide := by
  constructor
  · intro h
    unfold productRule at h
    split at h
    · exact .inr ⟨rfl, (Option.some.inj h).symm⟩
    · exact .inl ⟨rfl, (Option.some.inj h).symm⟩
    · cases h
  · rintro (⟨rfl, rfl⟩ | ⟨rfl, rfl⟩) <;> rfl

theorem sumRule_eq_some : sumRule o.minusIsNegative op = some build ↔
    op = "+" ∧ build = .binary .add ∨ op = "-" ∧ build = difference o := by
  constructor
  · intro h
    unfold sumRule at h
    split at h
    · exact .inl ⟨rfl, (Option.some.inj h).symm⟩
    · exact .inr ⟨rfl, (Option.some.inj h).symm⟩
    · cases h
  · rintro (⟨rfl, rfl⟩ | ⟨rfl, rfl⟩) <;> rfl

theorem raise_isNumeric (l r : Expr) : (raise l r).isNumeric = true := by
  unfold raise
  split <;> rfl

theorem difference_isNumeric (l r : Expr) : (difference o l r).isNumeric = true := by
  unfold difference
  split <;> rfl

theorem powerRule_numeric : Rule.Numeric powerRule := by
  intro op build l r h
  obtain ⟨-, rfl⟩ := powerRule_eq_some.mp h
  exact raise_isNumeric l r

theorem productRule_numeric : Rule.Numeric productRule := by
  intro op build l r h
  rcases productRule_eq_some.mp h with ⟨-, rfl⟩ | ⟨-, rfl⟩ <;> rfl

theorem sumRule_numeric : Rule.Numeric (sumRule o.minusIsNegative) := by
  intro op build l r h
  rcases sumRule_eq_some.mp h with ⟨-, rfl⟩ | ⟨-, rfl⟩
  · rfl
  · exact difference_isNumeric l r

theorem power_iff : Power ps e ↔ Chain powerRule Factor Factor ps e := by
  constructor
  · intro h
    induction h with
    | factor h => exact .first h
    | power _ hr ih => exact ih.operator (powerRule_eq_some.mpr ⟨rfl, rfl⟩) hr
  · intro h
    induction h with
    | first h => exact .factor h
    | operator _ hop hr ih =>
      obtain ⟨rfl, rfl⟩ := powerRule_eq_some.mp hop
      exact ih.power hr

theorem plainPower_iff : PlainPower ps e ↔ Chain powerRule Node Factor ps e := by
  constructor
  · intro h
    induction h with
    | node h => exact .first h
    | power _ hr ih => exact ih.operator (powerRule_eq_some.mpr ⟨rfl, rfl⟩) hr
  · intro h
    induction h with
    | first h => exact .node h
    | operator _ hop hr ih =>
      obtain ⟨rfl, rfl⟩ := powerRule_eq_some.mp hop
      exact ih.power hr

theorem run_iff (hi : o.implicitProduct.holds = true) :
    Run o ps e ↔ Row Power PlainPower ps e := by
  constructor
  · intro h
    induction h with
    | power h => exact .first h
    | times _ _ hr ih => exact ih.times hr
  · intro h
    induction h with
    | first h => exact .power h
    | times _ hr ih => exact ih.times hi hr

theorem run_iff_power (hi : o.implicitProduct.holds = false) : Run o ps e ↔ Power ps e := by
  constructor
  · rintro (h | ⟨h, -, -⟩)
    · exact h
    · rw [hi] at h; cases h
  · exact .power

theorem product_iff : Product o ps e ↔ Chain productRule (Run o) (Run o) ps e := by
  constructor
  · intro h
    induction h with
    | run h => exact .first h
    | times _ hr ih => exact ih.operator (productRule_eq_some.mpr (.inl ⟨rfl, rfl⟩)) hr
    | divided _ hr ih => exact ih.operator (productRule_eq_some.mpr (.inr ⟨rfl, rfl⟩)) hr
  · intro h
    induction h with
    | first h => exact .run h
    | operator _ hop hr ih =>
      rcases productRule_eq_some.mp hop with ⟨rfl, rfl⟩ | ⟨rfl, rfl⟩
      · exact ih.times hr
      · exact ih.divided hr

theorem sum_iff :
    Sum o ps e ↔ Chain (sumRule o.minusIsNegative) (Product o) (Product o) ps e := by
  constructor
  · intro h
    induction h with
    | product h => exact .first h
    | plus _ hr ih => exact ih.operator (sumRule_eq_some.mpr (.inl ⟨rfl, rfl⟩)) hr
    | minus _ hr ih => exact ih.operator (sumRule_eq_some.mpr (.inr ⟨rfl, rfl⟩)) hr
  · intro h
    induction h with
    | first h => exact .product h
    | operator _ hop hr ih =>
      rcases sumRule_eq_some.mp hop with ⟨rfl, rfl⟩ | ⟨rfl, rfl⟩
      · exact ih.plus hr
      · exact ih.minus hr

theorem Run.isNumeric (h : Run o ps e) : e.isNumeric = true := by
  cases h with
  | power h => exact (power_iff.mp h).isNumeric powerRule_numeric (signed_isNumeric false)
  | times => rfl

-- ---------------------------------------------------------------------------
-- The passes and the grammar
-- ---------------------------------------------------------------------------

theorem sum_of_applyOperators (h : applyOperators o ps = .ok [.tree e]) (he : e.isNumeric = true) :
    Sum o ps e := by
  simp only [applyOperators, bind_eq_ok] at h
  obtain ⟨ps₁, h₁, ps₂, h₂, ps₄, h₄, h₅⟩ := h
  -- Upwards: the operands after each pass are read from the list before the first one.
  have g₁ := (applySigns_ok h₁).mono fun _ _ _ => Signed.reading
  have g₂ := g₁.comp (fun b _ _ hp => hp.reading powerRule_numeric b) (fold_ok h₂ false)
  have g₃ : Grouped (Reading (fun b ls e => b = false → Run o ls e) fun _ _ => True) false ps
      (if o.implicitProduct.holds then join ps₂ else ps₂) := by
    split
    · rename_i hi
      refine (g₂.comp (fun b _ _ hp => hp.1.reading b) (join_grouped ps₂)).mono fun _ _ _ hr =>
        hr.mono (fun b ls e hd hb => ?_) fun _ _ h => h
      subst hb
      exact (run_iff hi).mpr (hd.mono (fun _ _ => power_iff.mpr) fun _ _ => plainPower_iff.mpr)
    · refine g₂.mono fun _ _ _ hr => hr.mono (fun b ls e hd hb => ?_) fun _ _ h => h
      subst hb
      exact .power (power_iff.mpr hd)
  have g₄ := g₃.comp (fun b _ _ hp => hp.reading productRule_numeric b) (fold_ok h₄ false)
  have g₅ := g₄.comp (fun b _ _ hp => hp.reading sumRule_numeric b) (fold_ok h₅ false)
  have hprod : ∀ ls e, Chain productRule (fun ls e => false = false → Run o ls e)
      (fun ls e => false = false → Run o ls e) ls e → Product o ls e := fun ls e h =>
    product_iff.mpr (h.mono (fun _ _ h => h rfl) fun _ _ h => h rfl)
  exact sum_iff.mpr (((Grouped.single_iff.mp g₅).of_operand (operand?_tree he)).mono hprod hprod)

def AfterOperand (ops : List String) (b : Bool) (p : Part) : Prop :=
  b = true ∧ ∃ op ∈ ops, p = .pending op

theorem afterOperand_sum (op : String) (h : (sumRule o.minusIsNegative op).isSome) :
    AfterOperand ["+", "-"] true (.pending op) := by
  obtain ⟨build, h⟩ := Option.isSome_iff_exists.mp h
  rcases sumRule_eq_some.mp h with ⟨rfl, -⟩ | ⟨rfl, -⟩ <;> exact ⟨rfl, _, by simp, rfl⟩

theorem afterOperand_product (op : String) (h : (productRule op).isSome) :
    AfterOperand ["+", "-", "*", "/"] true (.pending op) := by
  obtain ⟨build, h⟩ := Option.isSome_iff_exists.mp h
  rcases productRule_eq_some.mp h with ⟨rfl, -⟩ | ⟨rfl, -⟩ <;> exact ⟨rfl, _, by simp, rfl⟩

theorem afterOperand_power (op : String) (h : (powerRule op).isSome) :
    AfterOperand ["+", "-", "*", "/", "^"] true (.pending op) := by
  obtain ⟨build, h⟩ := Option.isSome_iff_exists.mp h
  obtain ⟨rfl, -⟩ := powerRule_eq_some.mp h
  exact ⟨rfl, _, by simp, rfl⟩

theorem AfterOperand.later (h : AfterOperand ops b p) (hs : ops ⊆ ops')
    (hr : ∀ op ∈ ops, rule op = none) : AfterOperand ops' b p ∧ operator? rule p = none := by
  obtain ⟨hb, op, hop, rfl⟩ := h
  exact ⟨⟨hb, op, hs hop, rfl⟩, by simp [operator?, hr op hop]⟩

/-- A run where it may stand: not after an operand. -/
def Apart (o : Options) (b : Bool) (ps : List Part) (e : Expr) : Prop := b = false ∧ Run o ps e

theorem sum_apart (h : Sum o ps e) :
    Chain (sumRule o.minusIsNegative) (Chain productRule (Apart o false) (Apart o false))
      (Chain productRule (Apart o false) (Apart o false)) ps e := by
  have hp : ∀ ps e, Product o ps e → Chain productRule (Apart o false) (Apart o false) ps e :=
    fun _ _ h => (product_iff.mp h).mono (fun _ _ h => ⟨rfl, h⟩) fun _ _ h => ⟨rfl, h⟩
  exact (sum_iff.mp h).mono hp hp

theorem Apart.joined (h : Grouped (Reading (Apart o) O) b ps out) :
    ∃ ms, Grouped (Reading (fun b => Chain powerRule (signed b) (signed false)) O) b ps ms ∧
      (if o.implicitProduct.holds then join ms else ms) = out := by
  cases hi : o.implicitProduct.holds with
  | true =>
    have hrow : ∀ b ls e, Apart o b ls e → b = false ∧
        Row (Chain powerRule (signed b) (signed false))
          (Chain powerRule (signed true) (signed false)) ls e := by
      rintro b ls e ⟨rfl, hd⟩
      exact ⟨rfl, ((run_iff hi).mp hd).mono (fun _ _ => power_iff.mp) fun _ _ => plainPower_iff.mp⟩
    have hnum : ∀ b ls e, Chain powerRule (signed b) (signed false) ls e → e.isNumeric = true :=
      fun b _ _ h => h.isNumeric powerRule_numeric (signed_isNumeric b)
    obtain ⟨ms, hm, hk⟩ := (h.mono fun _ _ _ hr => hr.mono hrow fun _ _ h => h).factor
      fun _ _ _ hr => hr.joined hnum
    exact ⟨ms, hm, join_of_grouped hk⟩
  | false =>
    refine ⟨out, h.mono fun _ _ _ hr => hr.mono (fun b ls e hd => ?_) fun _ _ h => h, rfl⟩
    obtain ⟨rfl, hd⟩ := hd
    exact power_iff.mp ((run_iff_power hi).mp hd)

theorem applyOperators_of_sum (h : Sum o ps e) : applyOperators o ps = .ok [.tree e] := by
  have hrun : ∀ b ls e, Apart o b ls e → e.isNumeric = true := fun _ _ _ h => h.2.isNumeric
  have hprod : ∀ b ls e, Chain productRule (Apart o b) (Apart o false) ls e →
      e.isNumeric = true := fun b _ _ h => h.isNumeric productRule_numeric (hrun b)
  -- Downwards: the list after each pass tells which list the pass has to be given. The
  -- operators that only later passes take stand after an operand in all of them.
  obtain ⟨ps₄, g₄, k₅, -⟩ := (sum_apart h).folded sumRule_numeric hprod afterOperand_sum
  obtain ⟨ps₃, g₃, k₄⟩ := g₄.factor fun _ _ _ h =>
    h.folded productRule_numeric hrun afterOperand_product fun _ _ ho =>
      ho.later (by simp) (by simp [productRule])
  obtain ⟨ps₂, g₂, h₃⟩ := Apart.joined g₃
  obtain ⟨ps₁, g₁, k₂⟩ := g₂.factor fun _ _ _ h =>
    h.folded powerRule_numeric signed_isNumeric afterOperand_power fun _ _ ho =>
      ho.later (by simp) (by simp [powerRule])
  have h₁ := applySigns_of_grouped (g₁.mono fun _ _ _ h => h.signed fun _ _ ho => ho.1)
  simp only [applyOperators, bind_eq_ok]
  refine ⟨ps₁, h₁, ps₂, fold_of_grouped k₂, ps₄, ?_, ?_⟩
  · rw [h₃]
    exact fold_of_grouped k₄
  · exact fold_of_grouped (Grouped.single (b := false) k₅)

theorem single_eq_ok : single ps = .ok e ↔ ps = [.tree e] ∧ e.isNumeric = true := by
  constructor
  · intro h
    unfold single at h
    split at h
    · rename_i p
      split at h
      · rename_i hp
        cases h
        obtain ⟨rfl, he⟩ := operand?_eq_some.mp hp
        exact ⟨rfl, he⟩
      · cases h
    · cases h
  · rintro ⟨rfl, he⟩
    simp [single, operand?_tree he]

theorem Sum.isNumeric (h : Sum o ps e) : e.isNumeric = true := by
  refine (sum_apart h).isNumeric sumRule_numeric fun _ _ h => ?_
  exact h.isNumeric productRule_numeric fun _ _ h => h.2.isNumeric

theorem operators_eq_ok : applyOperators o ps >>= single = .ok e ↔ Sum o ps e := by
  rw [bind_eq_ok]
  constructor
  · rintro ⟨out, h, hs⟩
    obtain ⟨rfl, he⟩ := single_eq_ok.mp hs
    exact sum_of_applyOperators h he
  · intro h
    exact ⟨_, applyOperators_of_sum h, single_eq_ok.mpr ⟨rfl, h.isNumeric⟩⟩

-- ---------------------------------------------------------------------------
-- Outside the grammar
-- ---------------------------------------------------------------------------

/-- Why operators and operands make up no formula. -/
inductive Refusal : ParseError → Prop
  | missingOperand (op : String) : Refusal (.missingOperand op)
  | notOperand (p : Part) : Refusal (.notOperand p)
  | leftover (ps : List Part) : Refusal (.leftover ps)

inductive Stuck : ParseError → Prop
  | missingOperand (op : String) : Stuck (.missingOperand op)
  | notOperand (p : Part) : Stuck (.notOperand p)

theorem Stuck.refusal (h : Stuck err) : Refusal err := by
  cases h with
  | missingOperand op => exact .missingOperand op
  | notOperand p => exact .notOperand p

theorem applySigns_stuck (h : applySigns b ps = .error err) : Stuck err := by
  fun_induction applySigns b ps with
  | case1 => cases h
  | case2 => cases h
  | case3 _ _ _ _ _ _ _ ih =>
    rcases bind_eq_error.mp h with h | ⟨_, _, h⟩
    · exact ih h
    · cases h
  | case4 => cases h; exact .notOperand _
  | case5 _ _ _ _ ih =>
    rcases bind_eq_error.mp h with h | ⟨_, _, h⟩
    · exact ih h
    · cases h

theorem requireOperand_stuck {p : Part} (h : p.requireOperand = .error err) : Stuck err := by
  unfold requireOperand at h
  split at h <;> cases h
  exact .notOperand p

theorem foldFrom_stuck {left : Option Part} (h : foldFrom rule left ps = .error err) :
    Stuck err := by
  fun_induction foldFrom rule left ps with
  | case1 => cases h
  | case2 _ _ _ _ ih =>
    rcases bind_eq_error.mp h with h | ⟨_, _, h⟩
    · exact ih h
    · cases h
  | case3 _ _ _ _ _ _ _ ih =>
    rcases bind_eq_error.mp h with h | ⟨l, _, h⟩
    · exact requireOperand_stuck h
    rcases bind_eq_error.mp h with h | ⟨r, _, h⟩
    · exact requireOperand_stuck h
    · exact ih l r h
  | case4 => cases h; exact .missingOperand _

theorem applyOperators_stuck (h : applyOperators o ps = .error err) : Stuck err := by
  simp only [applyOperators, bind_eq_error] at h
  rcases h with h | ⟨_, _, h | ⟨_, _, h | ⟨_, _, h⟩⟩⟩
  · exact applySigns_stuck h
  · exact foldFrom_stuck h
  · exact foldFrom_stuck h
  · exact foldFrom_stuck h

theorem single_refusal (h : single ps = .error err) : Refusal err := by
  unfold single at h
  split at h
  · split at h <;> cases h
    exact .leftover _
  · cases h
    exact .leftover _

theorem operators_refusal (h : applyOperators o ps >>= single = .error err) : Refusal err := by
  rcases bind_eq_error.mp h with h | ⟨_, _, h⟩
  · exact (applyOperators_stuck h).refusal
  · exact single_refusal h

-- ---------------------------------------------------------------------------
-- The grammar decides
-- ---------------------------------------------------------------------------

/-- The passes for operators return the trees that the grammar derives, refuse every
list without one, and no list has two. -/
theorem operators_follow_grammar (o : Options) (ps : List Part) :
    (∀ t, applyOperators o ps >>= single = .ok t ↔ Sum o ps t) ∧
      ((∀ t, ¬ Sum o ps t) → ∃ err, Refusal err ∧ applyOperators o ps >>= single = .error err) ∧
      ∀ t t', Sum o ps t → Sum o ps t' → t = t' := by
  refine ⟨fun t => operators_eq_ok, fun hn => ?_, fun t t' h h' => ?_⟩
  · cases h : applyOperators o ps >>= single with
    | ok t => exact absurd (operators_eq_ok.mp h) (hn t)
    | error err => exact ⟨err, operators_refusal h, rfl⟩
  · have ht := operators_eq_ok.mpr h
    rw [operators_eq_ok.mpr h'] at ht
    exact (Except.ok.inj ht).symm

/-- The signs of `-x^-x x` bind first, the product without a sign last; `x*` has no tree. -/
theorem operators_follow_grammar_signed_power :
    applyOperators {} [.pending "-", .tree (.named "x"), .pending "^", .pending "-",
        .tree (.named "x"), .tree (.named "x")] >>= single =
      .ok (.binary .multiply (.binary .power (.unary .negate (.named "x"))
        (.unary .negate (.named "x"))) (.named "x")) ∧
    ∃ err, Refusal err ∧
      applyOperators {} [.tree (.named "x"), .pending "*"] >>= single = .error err := by
  have hx : Node [.tree (.named "x")] (.named "x") := .tree rfl
  have hp : Power [.pending "-", .tree (.named "x"), .pending "^", .pending "-",
      .tree (.named "x")] (.binary .power (.unary .negate (.named "x"))
        (.unary .negate (.named "x"))) := (Power.factor (.negated hx)).power (.negated hx)
  refine ⟨((operators_follow_grammar _ _).1 _).mpr ?_,
    (operators_follow_grammar _ _).2.1 fun t h => ?_⟩
  · exact .product (.run (.times rfl (.power hp) (.node hx)))
  · exact nomatch ((operators_follow_grammar _ _).1 t).mpr h

end Formula.Part
