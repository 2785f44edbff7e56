import Formula.Proofs.Shapes

/-!
# Formulas with all brackets

Source terms, the text of a term in which every operand stands in brackets of its
own, and the tree that a term stands for. Each pair of brackets is round or square
as the term says.
-/

namespace Formula

inductive Operation where
  | plus | minus | times | divided | power
  deriving DecidableEq

namespace Operation

def symbol : Operation → Char
  | .plus => '+'
  | .minus => '-'
  | .times => '*'
  | .divided => '/'
  | .power => '^'

def tree (o : Options) : Operation → Expr → Expr → Expr
  | .plus => .binary .add
  | .minus => Part.difference o
  | .times => .binary .multiply
  | .divided => .binary .divide
  | .power => Part.raise

theorem symbol_mem (op : Operation) : op.symbol ∈ ['+', '-', '^', '/', '*'] := by
  cases op <;> decide

theorem mark_symbol (op : Operation) : Bracket.mark op.symbol = .plain := by
  cases op <;> rfl

end Operation

inductive Source where
  | literal (whole fraction : List Char)
  | named (name : String)
  | constant (name : String)
  | negate (b : Bracket) (t : Source)
  | binary (op : Operation) (b : Bracket) (l : Source) (b' : Bracket) (r : Source)
  | builtin (name : String) (b : Bracket) (ts : List Source)
  | declared (d : Definition) (b : Bracket) (ts : List Source)

def builtinTree (name : String) : List Expr → Expr
  | [x] =>
    match name with
    | "sin" => .unary .sin x
    | "cos" => .unary .cos x
    | "tan" | "tg" => .unary .tan x
    | "cot" | "ctg" => .unary .cot x
    | "asin" | "arcsin" => .unary .asin x
    | "acos" | "arccos" => .unary .acos x
    | "atan" | "arctg" => .unary .atan x
    | "acot" | "arcctg" => .unary .acot x
    | "sqrt" | "√" => .binary .power x (.real 0.5)
    | "ln" => .binary .log .euler x
    | "lg" => .binary .log (.whole 2) x
    | "log" => .binary .log (.whole 10) x
    | _ => .missing
  | [base, x] => .binary .log base x
  | _ => .missing

namespace Source

variable {o : Options}

-- ---------------------------------------------------------------------------
-- Texts, trees, and which terms have them
-- ---------------------------------------------------------------------------

mutual
def text : Source → List Char
  | .literal whole fraction => Token.digits whole fraction
  | .named name | .constant name => name.toList
  | .negate b t => ['-'] ++ b.opener :: (t.text ++ [b.closer])
  | .binary op b l b' r =>
    b.opener :: (l.text ++ b.closer :: op.symbol :: b'.opener :: (r.text ++ [b'.closer]))
  | .builtin name b ts => name.toList ++ b.opener :: ([','].intercalate (texts ts) ++ [b.closer])
  | .declared d b ts =>
    d.signature.name.words.toList ++ b.opener :: ([','].intercalate (texts ts) ++ [b.closer])
def texts : List Source → List (List Char)
  | [] => []
  | t :: ts => t.text :: texts ts
end

mutual
def tree (o : Options) : Source → Expr
  | .literal whole fraction => .real (Decimal.Literal.toFloat ⟨false, whole, fraction, 0⟩)
  | .named name => .named name
  | .constant name => if name = "e" then .euler else .pi
  | .negate _ t => .unary .negate (t.tree o)
  | .binary op _ l _ r => op.tree o (l.tree o) (r.tree o)
  | .builtin name _ ts => builtinTree name (trees o ts)
  | .declared d _ ts => .call d (trees o ts)
def trees (o : Options) : List Source → List Expr
  | [] => []
  | t :: ts => t.tree o :: trees o ts
end

mutual
/-- The names of a term are known under the options, and its calls have a number of
arguments that is accepted. -/
def Valid (o : Options) : Source → Prop
  | .literal whole fraction => whole ≠ [] ∧ ∀ c ∈ whole ++ fraction, Text.isDigit c = true
  | .named name => name ∈ o.variableNames.texts
  | .constant name => name ∈ ["e", "pi", "π"] ∧ name ∉ o.variableNames.texts
  | .negate _ t => t.Valid o
  | .binary _ _ l _ r => l.Valid o ∧ r.Valid o
  | .builtin name _ ts => name ∈ Builtin.functionNames ∧ name ∉ o.functions.textNames ∧
      (ts.length = 1 ∨ name = "log" ∧ ts.length = 2) ∧ ValidAll o ts
  | .declared d _ ts => d ∈ o.functions.definitions ∧
      d.signature.accepts ts.length = some true ∧ ValidAll o ts
def ValidAll (o : Options) : List Source → Prop
  | [] => True
  | t :: ts => t.Valid o ∧ ValidAll o ts
end

theorem texts_eq (ts : List Source) : texts ts = ts.map text := by
  induction ts with
  | nil => rfl
  | cons t ts ih => rw [texts, ih, List.map_cons]

theorem trees_eq (ts : List Source) : trees o ts = ts.map (tree o) := by
  induction ts with
  | nil => rfl
  | cons t ts ih => rw [trees, ih, List.map_cons]

theorem validAll_iff {ts : List Source} : ValidAll o ts ↔ ∀ t ∈ ts, t.Valid o := by
  induction ts with
  | nil => simp [ValidAll]
  | cons t ts ih => rw [ValidAll, ih, List.forall_mem_cons]

/-- Induction over terms, where a call may use what holds of all its arguments. -/
theorem induction {P : Source → Prop} (literal : ∀ w f, P (.literal w f))
    (named : ∀ name, P (.named name)) (constant : ∀ name, P (.constant name))
    (negate : ∀ b t, P t → P (.negate b t))
    (binary : ∀ op b l b' r, P l → P r → P (.binary op b l b' r))
    (builtin : ∀ name b ts, (∀ t ∈ ts, P t) → P (.builtin name b ts))
    (declared : ∀ d b ts, (∀ t ∈ ts, P t) → P (.declared d b ts)) (t : Source) : P t := by
  refine Source.rec (motive_1 := P) (motive_2 := fun ts => ∀ t ∈ ts, P t) literal named constant
    negate binary builtin declared nofun ?_ t
  exact fun t ts ht hts => List.forall_mem_cons.mpr ⟨ht, hts⟩

-- ---------------------------------------------------------------------------
-- Texts are balanced
-- ---------------------------------------------------------------------------

theorem isWord_named (declared : Declared o) (h : name ∈ o.variableNames.texts) :
    Name.isWord name.toList = true :=
  Name.isWord_of_isValid (declared.isValid_variable name h)

theorem isWord_constant (h : name ∈ ["e", "pi", "π"]) : Name.isWord name.toList = true :=
  Name.isWord_builtin (List.mem_append_left _ h)

theorem isWord_builtin (h : name ∈ Builtin.functionNames) : Name.isWord name.toList = true :=
  Name.isWord_builtin (List.mem_append_right _ h)

theorem isWord_declared (declared : Declared o) (h : d ∈ o.functions.definitions) :
    Name.isWord d.signature.name.words.toList = true := by
  obtain ⟨name, hname, hvalid, -⟩ := declared.isValid_function d h
  rw [hname]
  exact Name.isWord_of_isValid hvalid

open Formula.Bracket (Whole)

theorem whole_of_chars (hne : s ≠ []) (h : ∀ c ∈ s, Name.isWordChar c = true) : Whole s := by
  refine ⟨.of_plain fun c hc => Name.mark_of_isWordChar (h c hc), ?_⟩
  cases s with
  | nil => exact absurd rfl hne
  | cons c s => simp [Text.isBlankText, Name.isBlank_of_isWordChar (h c List.mem_cons_self)]

theorem whole_of_isWord (h : Name.isWord s = true) : Whole s :=
  whole_of_chars (Name.ne_nil_of_isWord h) fun _ => Name.isWordChar_of_isWord h

theorem whole_call (b : Bracket) (h : Name.isWord word = true)
    (hb : Bracket.Balanced true inside) : Whole (word ++ b.opener :: (inside ++ [b.closer])) := by
  obtain ⟨hbal, hblank⟩ := whole_of_isWord h
  refine ⟨hbal.append (.group b hb .nil), ?_⟩
  rw [Text.isBlankText, List.all_append, ← Text.isBlankText, hblank]
  rfl

theorem balanced_texts {ts : List Source} (h : ∀ t ∈ ts, Whole t.text) :
    Bracket.Balanced true ([','].intercalate (texts ts)) := by
  refine .intercalate fun s hs => ?_
  rw [texts_eq] at hs
  obtain ⟨t, ht, rfl⟩ := List.mem_map.mp hs
  exact (h t ht).1.weaken

theorem whole_text (declared : Declared o) (t : Source) (h : t.Valid o) : Whole t.text := by
  induction t using Source.induction with
  | literal whole fraction =>
    exact whole_of_chars (Token.digits_ne_nil h.1 fraction)
      fun c => Token.isWordChar_of_mem_digits h.2
  | named name => exact whole_of_isWord (isWord_named declared h)
  | constant name => exact whole_of_isWord (isWord_constant h.1)
  | negate b t ih => exact ⟨.plain rfl nofun (.group b (ih h).1.weaken .nil), rfl⟩
  | binary op b l b' r ihl ihr =>
    have hcomma : op.symbol ≠ ',' := by cases op <;> decide
    refine ⟨.group b (ihl h.1).1.weaken
      (.plain op.mark_symbol (absurd · hcomma) (.group b' (ihr h.2).1.weaken .nil)), ?_⟩
    cases b <;> rfl
  | builtin name b ts ih =>
    obtain ⟨hname, -, -, hts⟩ := h
    exact whole_call b (isWord_builtin hname)
      (balanced_texts fun t ht => ih t ht (validAll_iff.mp hts t ht))
  | declared d b ts ih =>
    obtain ⟨hd, -, hts⟩ := h
    exact whole_call b (isWord_declared declared hd)
      (balanced_texts fun t ht => ih t ht (validAll_iff.mp hts t ht))

end Source

end Formula
