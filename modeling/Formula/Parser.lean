import Formula.Bracket.Arguments
import Formula.Declaration
import Formula.Decimal.Literal
import Formula.Options
import Formula.Part.Reduction
import Formula.Relation
import Formula.Token

/-!
# Reading a formula

A text is cut at its brackets. Plain segments become tokens, the arguments of a
group are read as formulas of their own, one level deeper, and the parts that
come of it are reduced to a tree.
-/

namespace Formula

/-- Options that have been checked, and the vocabulary they lead to. -/
structure Parser where
  options : Options
  vocabulary : Vocabulary

namespace Parser

def ofOptions (o : Options) : Except ParseError Parser := do
  checkDeclarations o.variableNames o.functions.signatures
  return { options := o, vocabulary := .ofNames o.variableNames.texts.toList o.functions.textNames }

def ofToken (t : Token) : Part :=
  match t.kind with
  | .number => .tree (.real (Decimal.ofNumeral t.text))
  | .word | .operator | .unknown => .pending (String.ofList t.text)

/-- The trees of a group: a single one stands for itself. -/
def ofGroup : List Expr → Part
  | [e] => .tree e
  | es => .arguments es

def segmentParts (p : Parser) (read : List Char → Except ParseError Expr) :
    Bracket.Segment → Except ParseError (List Part)
  | .plain _ text => .ok ((Token.read p.vocabulary text).map ofToken)
  | .group _ _ text => do
    let es ← (Bracket.arguments text).mapM read
    return [ofGroup es]

/-- The tree of a text at a depth of brackets, with `room` levels below it. There a message can
show `shown depth` levels of a tree. -/
def readAt (p : Parser) (shown : Nat → Nat) (room depth : Nat) (text : List Char) :
    Except ParseError Expr :=
  if p.options.isTooDeep depth then .error (.tooDeep depth p.options.maxDepth)
  else match room with
    | 0 => .error .exhausted
    | room + 1 => do
      let segments ← (Bracket.segments text).mapError .bracket
      let parts ← segments.mapM (p.segmentParts (p.readAt shown room (depth + 1)))
      Part.reduceWithin (shown depth) p.options parts.flatten

/-- How far the recursions of reading can go, and from each depth of brackets those of messages. -/
structure Limits where
  brackets : Nat
  shown : Nat → Nat

/-- Reading what stands in brackets takes two calls of some 990, and a level of a tree that is
shown takes three. -/
def limits : Limits := ⟨990 / 2, fun depth => (990 - 2 * depth) / 3⟩

def readWithin (l : Limits) (p : Parser) (text : List Char) : Except ParseError Expr :=
  p.readAt l.shown l.brackets 0 text

def read (p : Parser) (text : List Char) : Except ParseError Expr := p.readWithin limits text

-- ---------------------------------------------------------------------------
-- Texts with relations
-- ---------------------------------------------------------------------------

/-- Every side is read, then the sides are compared from left to right: each
comparison is the left side of the next. -/
def readChainWithin (l : Limits) (p : Parser) (c : Chain) : Except ParseError Expr := do
  if let some r := Chain.unpaired? c.first c.links then throw (.missingOperand r.symbol)
  let first ← p.readWithin l c.first
  c.links.foldlM (fun left link => do
    let right ← p.readWithin l link.2
    return .compare link.1 left right) first

def readRelations (p : Parser) (text : List Char) : Except ParseError Expr :=
  p.readChainWithin limits (.ofText text)

end Parser

def parseWithin (l : Parser.Limits) (o : Options) (text : List Char) : Except ParseError Expr := do
  let p ← Parser.ofOptions o
  p.readWithin l text

def parseRelationsWithin (l : Parser.Limits) (o : Options) (text : List Char) :
    Except ParseError Expr := do
  let p ← Parser.ofOptions o
  p.readChainWithin l (.ofText text)

def parse (o : Options) (text : String) : Except ParseError Expr :=
  parseWithin Parser.limits o text.toList

def parseRelations (o : Options) (text : String) : Except ParseError Expr :=
  parseRelationsWithin Parser.limits o text.toList

end Formula
