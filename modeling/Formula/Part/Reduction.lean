import Formula.Part
import Formula.Options
import Formula.ParseError
import Formula.Builtin

/-!
# From parts to a tree

Parts are reduced in fixed passes: names of variables and constants, calls,
signs, powers, products without a sign, products, and sums. Within one pass
operators are taken from left to right. What is left must be a single tree.
-/

namespace Formula

namespace Part

-- ---------------------------------------------------------------------------
-- Names
-- ---------------------------------------------------------------------------

/-- Puts the leaf in the place of a name. A declared variable wins over a
constant. -/
def nameLeaf (variableNames : OrderedSet String) : Part → Part
  | .pending text =>
    if text ∈ variableNames then .tree (.named text)
    else match Builtin.constant? text with
      | some e => .tree e
      | none => .pending text
  | part => part

def nameLeaves (variableNames : OrderedSet String) (parts : List Part) : List Part :=
  parts.map (nameLeaf variableNames)

-- ---------------------------------------------------------------------------
-- Calls
-- ---------------------------------------------------------------------------

inductive Callee where
  | declared (d : Definition)
  | builtin (name : String) (f : Builtin)

/-- A declared function wins over a built-in one. -/
def callee? (functions : FunctionTable) : Part → Option Callee
  | .pending text =>
    match functions.byName? (.text text) with
    | some d => some (.declared d)
    | none => (Builtin.function? text).map (.builtin text)
  | .arguments _ | .tree _ => none

/-- The tree of a call. A declared function without arguments after it is called
with none; a built-in one always needs some. -/
def Callee.call (arguments? : Option (List Expr)) : Callee → Except ParseError Expr
  | .declared d =>
    let es := arguments?.getD []
    match d.signature.accepts es.length with
    | some true => .ok (.call d es)
    | some false => .error (.argumentCount d.signature.text)
    | none => .error (.unfitRange d.signature)
  | .builtin name f =>
    match arguments?.bind f.call? with
    | some e => .ok e
    | none => .error (.argumentCount name)

/-- Every function name with the part after it, if that is an operand or a list
of arguments, becomes a call. -/
def makeCalls (functions : FunctionTable) : List Part → Except ParseError (List Part)
  | [] => .ok []
  | part :: rest =>
    match callee? functions part with
    | none => do
      let later ← makeCalls functions rest
      return part :: later
    | some callee =>
      match rest with
      | [] => do
        let e ← callee.call none
        return [.tree e]
      | next :: rest =>
        match next.arguments? with
        | some es => do
          let e ← callee.call (some es)
          let later ← makeCalls functions rest
          return .tree e :: later
        | none => do
          let e ← callee.call none
          let later ← makeCalls functions (next :: rest)
          return .tree e :: later

/-- Calls made, and brackets with nothing in them dropped where no call used them. -/
def applyCalls (functions : FunctionTable) (parts : List Part) : Except ParseError (List Part) := do
  let called ← makeCalls functions parts
  return called.filter (!·.isEmptyList)

-- ---------------------------------------------------------------------------
-- Signs
-- ---------------------------------------------------------------------------

def isMinus : Part → Bool
  | .pending text => text == "-"
  | .arguments _ | .tree _ => false

/-- A minus sign that follows no operand negates the operand after it. -/
def applySigns (afterOperand : Bool) : List Part → Except ParseError (List Part)
  | [] => .ok []
  | part :: rest =>
    if part.isMinus && !afterOperand then
      match rest with
      | [] => .ok [part]
      | next :: rest =>
        match next.operand? with
        | some e => do
          let later ← applySigns true rest
          return .tree (.unary .negate e) :: later
        | none => .error (.notOperand next)
    else do
      let later ← applySigns part.isOperand rest
      return part :: later

-- ---------------------------------------------------------------------------
-- Operators
-- ---------------------------------------------------------------------------

abbrev Rule := String → Option (Expr → Expr → Expr)

def powerRule : Rule
  | "^" => some fun l r => if l.isEuler then .unary .exp r else .binary .power l r
  | _ => none

def productRule : Rule
  | "/" => some (.binary .divide)
  | "*" => some (.binary .multiply)
  | _ => none

def sumRule (minusIsNegative : Datum) : Rule
  | "+" => some (.binary .add)
  | "-" => some fun l r =>
    if minusIsNegative.holds then .binary .add l (.unary .negate r) else .binary .subtract l r
  | _ => none

def operator? (rule : Rule) : Part → Option (String × (Expr → Expr → Expr))
  | .pending text => (rule text).map fun build => (text, build)
  | .arguments _ | .tree _ => none

def requireOperand (part : Part) : Except ParseError Expr :=
  match part.operand? with
  | some e => .ok e
  | none => .error (.notOperand part)

/-- Folds the operators of a rule from left to right. `left` is the part before
the list, if there is one. -/
def foldFrom (rule : Rule) (left : Option Part) : List Part → Except ParseError (List Part)
  | [] => .ok left.toList
  | part :: rest =>
    match operator? rule part with
    | none => do
      let later ← foldFrom rule (some part) rest
      return left.toList ++ later
    | some (op, build) =>
      match left, rest with
      | some left, right :: rest => do
        let l ← requireOperand left
        let r ← requireOperand right
        foldFrom rule (some (.tree (build l r))) rest
      | _, _ => .error (.missingOperand op)

def fold (rule : Rule) (parts : List Part) : Except ParseError (List Part) :=
  foldFrom rule none parts

def joinFrom (left : Part) : List Part → List Part
  | [] => [left]
  | part :: rest =>
    match left.operand?, part.operand? with
    | some l, some r => joinFrom (.tree (.binary .multiply l r)) rest
    | _, _ => left :: joinFrom part rest

def join : List Part → List Part
  | [] => []
  | part :: rest => joinFrom part rest

-- ---------------------------------------------------------------------------
-- All passes
-- ---------------------------------------------------------------------------

def applyOperators (o : Options) (parts : List Part) : Except ParseError (List Part) := do
  let parts ← applySigns false parts
  let parts ← fold powerRule parts
  let parts := if o.implicitProduct.holds then join parts else parts
  let parts ← fold productRule parts
  fold (sumRule o.minusIsNegative) parts

def single (parts : List Part) : Except ParseError Expr :=
  match parts with
  | [part] => match part.operand? with
    | some e => .ok e
    | none => .error (.leftover [part])
  | parts => .error (.leftover parts)

def reduce (o : Options) (parts : List Part) : Except ParseError Expr := do
  let parts ← applyCalls o.functions (nameLeaves o.variableNames.texts parts)
  let parts ← applyOperators o parts
  single parts

/-- The reduction where a message can show so many levels of a tree. -/
def reduceWithin (levels : Nat) (o : Options) (parts : List Part) : Except ParseError Expr :=
  (reduce o parts).mapError (·.shownWithin levels)

end Part

end Formula
