import Formula.Expr.Stored
import Formula.Values

/-!
# Values of trees

A numeric tree has a double for its value. A comparison has the value of one of
its sides, or none: an equation has the shared value, an inequality the side that
wins. The truth of a comparison is one or zero, or unknown when an inequality
lacks a value on one side. Both sides are always evaluated, the left one first.
-/

namespace Formula

def Number.eval (n : Number) : Except EvalError Float :=
  match n.toFloat? with
  | some x => .ok x
  | none => .error .overflow

def Datum.eval : Datum → Except EvalError Float
  | .scalar n => n.eval
  | .text _ | .list _ | .mapping .. => .error .notNumber

namespace Values

def lookup (vs : Values) (name : Datum) : Except EvalError (Option Number) :=
  if name.isAtom then .ok (vs.get? name) else .error .unfitName

def value (vs : Values) (name : Datum) : Except EvalError Number := do
  match ← vs.lookup name with
  | some n => return n
  | none => throw (.undefinedVariable name)

end Values

-- ---------------------------------------------------------------------------
-- Comparisons
-- ---------------------------------------------------------------------------

namespace Relation

/-- The value of a comparison from the values of its sides. A side without a
value equals only another such side, and that equation has no value either. -/
def value : Relation → Option Float → Option Float → Option Float
  | .equals, a, b => if a == b then a else none
  | r, some a, some b => some (if r.holds a b then a else b)
  | _, _, _ => none

def truth : Relation → Option Float → Option Float → Option Float
  | .equals, a, b => some (if a == b then 1.0 else 0.0)
  | r, some a, some b => some (if r.holds a b then 1.0 else 0.0)
  | _, _, _ => none

end Relation

-- ---------------------------------------------------------------------------
-- Bodies of functions
-- ---------------------------------------------------------------------------

abbrev Evaluator := Values → FunctionTable → Expr → Except EvalError (Option Float)

namespace Scope

def values (s : Scope) (vs : Values) : Values :=
  s.bound.foldl (fun vs entry => vs.insert entry.1 entry.2) (if s.keepsValues then vs else ∅)

def functions (s : Scope) (fs : FunctionTable) : FunctionTable :=
  if s.keepsFunctions then fs else ∅

end Scope

namespace Body

/-- The value of an argument, which must not be a missing tree. -/
def argument (eval : Evaluator) (vs : Values) (fs : FunctionTable) (e : Expr) :
    Except EvalError (Option Float) :=
  match e with
  | .missing => .error .missingArgument
  | e => eval vs fs e

def operand (eval : Evaluator) (vs : Values) (fs : FunctionTable) (e : Expr) :
    Except EvalError Float := do
  match ← argument eval vs fs e with
  | some x => return x
  | none => throw .noValue

def total (f : Float → Float → Float) (eval : Evaluator) (vs : Values) (fs : FunctionTable)
    (start : Float) : List Expr → Except EvalError Float
  | [] => .ok start
  | e :: es => do
    let x ← operand eval vs fs e
    total f eval vs fs (f start x) es

def pick (eval : Evaluator) (vs : Values) (fs : FunctionTable) (e? : Option Expr) :
    Except EvalError (Option Float) :=
  match e? with
  | some e => argument eval vs fs e
  | none => .error .noArgument

def runScript (eval : Evaluator) (vs : Values) (fs : FunctionTable) (es : List Expr) :
    Script → Except EvalError (Option Float)
  | .answer result => result
  | .ask position scope next =>
    runScript eval vs fs es (next (pick eval (scope.values vs) (scope.functions fs) es[position]?))

/-- What a function gives for its arguments. A body reads variables and functions
through the values of arguments only. -/
def run (eval : Evaluator) (vs : Values) (fs : FunctionTable) (es : List Expr) :
    Body → Except EvalError (Option Float)
  | .sum => some <$> total (· + ·) eval vs fs 0.0 es
  | .product => some <$> total (· * ·) eval vs fs 1.0 es
  | .count => .ok (some es.length.toFloat)
  | .first => pick eval vs fs es.head?
  | .last => pick eval vs fs es.getLast?
  | .atTen => pick eval (.x (.whole 10)) fs es.head?
  | .isolated => pick eval vs ∅ es.head?
  | .binding =>
    let bind : Evaluator := fun vs fs e => do
      let x ← pick eval vs fs es.head?
      eval (vs.insert (.text "x") ((x.map Number.real).getD .absent)) fs e
    pick bind vs fs es[1]?
  | .nothing => .ok none
  | .constant n => some <$> n.eval
  | .script start => runScript eval vs fs es (start (Expr.toDatumAll es))

end Body

namespace Definition

def body? (d : Definition) (fs : FunctionTable) : Option Body :=
  match d.body with
  | some b => some b
  | none => (fs.implementation? d.signature).bind (·.body)

end Definition

-- ---------------------------------------------------------------------------
-- Trees
-- ---------------------------------------------------------------------------

namespace Expr

mutual
/-- The double of a numeric tree. No value at all counts as not-a-number. -/
def number (room : Nat) (vs : Values) (fs : FunctionTable) (e : Expr) : Except EvalError Float :=
  match room with
  | 0 => .error .tooDeep
  | room + 1 =>
    match e with
    | .const d => d.eval
    | .var name => do
      let n ← vs.value name
      n.eval
    | .unary op e => do
      let x ← number room vs fs e
      return op.apply x
    | .binary op l r => do
      let x ← number room vs fs l
      let y ← number room vs fs r
      return op.apply x y
    | .call d es =>
      match d.body? fs with
      | some b => do
        let x ← b.run (outcome room) vs fs es
        return x.getD (0.0 / 0.0)
      | none => .error (.undefinedFunction d.signature)
    | .compare .. => .error .comparisonOperand
    | .missing => .error .missingOperand
/-- The value of any tree. A comparison takes three levels: one of its own, one to compare its sides
and one to evaluate both of them. -/
def outcome (room : Nat) (vs : Values) (fs : FunctionTable) (e : Expr) :
    Except EvalError (Option Float) :=
  match room with
  | 0 => .error .tooDeep
  | room + 1 =>
    match e with
    | .compare r a b =>
      match room with
      | room + 2 => do
        let x ← outcome room vs fs a
        let y ← outcome room vs fs b
        return r.value x y
      | _ => .error .tooDeep
    | .missing => .error .missingTree
    | e => some <$> number room vs fs e
end

/-- The truth of a comparison, which takes a level less than its value; the value of any other
tree. -/
def truthWithin (room : Nat) (vs : Values) (fs : FunctionTable) (e : Expr) :
    Except EvalError (Option Float) :=
  match e with
  | .compare r a b =>
    match room with
    | room + 2 => do
      let x ← outcome room vs fs a
      let y ← outcome room vs fs b
      return r.truth x y
    | _ => .error .tooDeep
  | e => outcome room vs fs e

def levels : Nat := 1000

def value (e : Expr) (vs : Values) (fs : FunctionTable) : Except EvalError (Option Float) :=
  e.outcome levels vs fs

def truth (e : Expr) (vs : Values) (fs : FunctionTable) : Except EvalError (Option Float) :=
  e.truthWithin levels vs fs

end Expr

end Formula
