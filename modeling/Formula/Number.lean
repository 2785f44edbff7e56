import Formula.Decimal.Layout
import Formula.Decimal.Literal

/-!
# Numbers as they are written down

A formula keeps whole numbers and doubles apart, since they are written
differently, and may carry a truth value or no value at all in place of a
number. The arithmetic of formulas sees doubles only; comparing numbers, and
taking the way from one to another, is exact as long as they are whole.
-/

namespace Formula

inductive Number where
  | whole (value : Int)
  | real (value : Float)
  | truth (value : Bool)
  | absent

namespace Number

def wholeToFloat? (n : Int) : Option Float :=
  let x := Decimal.toFloat (n < 0) n.natAbs 0
  if x.isInf then none else some x

/-- The double that arithmetic uses, `none` when it lies beyond all doubles. No
value counts as not-a-number and true as one. -/
def toFloat? : Number → Option Float
  | .whole n => wholeToFloat? n
  | .real x => some x
  | .truth b => some (if b then 1.0 else 0.0)
  | .absent => some (0.0 / 0.0)

def whole? : Number → Option Int
  | .whole n => some n
  | .truth b => some (if b then 1 else 0)
  | .real _ | .absent => none

-- ---------------------------------------------------------------------------
-- Comparing
-- ---------------------------------------------------------------------------

def orderWhole? (x : Float) (n : Int) : Option Ordering :=
  match Decimal.Reading.ofFloat x with
  | .nan => none
  | .infinite negative => some (if negative then .lt else .gt)
  | .finite negative m e =>
    let p := Decimal.power 2 e
    some (compare ((if negative then -(m : Int) else m) * p.1) (n * p.2))

/-- Equality of exact values, so `2` equals `2.0` and no value equals itself. -/
def same : Number → Number → Bool
  | .absent, .absent => true
  | .real x, .real y => x == y
  | .real x, n => n.whole?.any (orderWhole? x · == some .eq)
  | m, .real y => m.whole?.any (orderWhole? y · == some .eq)
  | m, n => match m.whole?, n.whole? with
    | some i, some j => i == j
    | _, _ => false

/-- Whether the first number is less by exact values, `none` when one of them is
no value. Nothing is less or greater than not-a-number. -/
def less? : Number → Number → Option Bool
  | .absent, _ | _, .absent => none
  | .real x, .real y => some (x < y)
  | .real x, n => n.whole?.map (orderWhole? x · == some .lt)
  | m, .real y => m.whole?.map (orderWhole? y · == some .gt)
  | m, n => do return decide ((← m.whole?) < (← n.whole?))

def atMost? (m n : Number) : Option Bool := (m.less? n).map (· || m.same n)

@[simp] theorem less?_whole (m n : Int) : less? (.whole m) (.whole n) = some (decide (m < n)) := rfl

@[simp] theorem same_whole (m n : Int) : same (.whole m) (.whole n) = (m == n) := rfl

-- ---------------------------------------------------------------------------
-- From one number to another
-- ---------------------------------------------------------------------------

/-- Whether a number has one of the fixed formats, a whole one that of a signed or
an unsigned word of 64 bits. -/
def isFixed : Number → Bool
  | .whole n => -Int.pow 2 63 ≤ n && n < Int.pow 2 64
  | .real _ | .truth _ | .absent => true

/-- The first number less the second, `none` when a whole number is beyond all
doubles but has to become one. -/
def minus? (m n : Number) : Option Number :=
  match m.whole?, n.whole? with
  | some i, some j => some (.whole (i - j))
  | _, _ => do return .real ((← m.toFloat?) - (← n.toFloat?))

def part? (m : Number) (n : Nat) : Option Float :=
  match m.whole? with
  | some i =>
    let x := Decimal.ofRatio (i < 0) i.natAbs n
    if x.isInf then none else some x
  | none => do return (← m.toFloat?) / n.toFloat

-- ---------------------------------------------------------------------------
-- Texts
-- ---------------------------------------------------------------------------

def text : Number → String
  | .whole n => toString n
  | .real x => Decimal.Style.plain.text x
  | .truth b => if b then "True" else "False"
  | .absent => "None"

def ofText? (text : String) : Option Number :=
  match text with
  | "nan" => some (.real (0.0 / 0.0))
  | "inf" => some (.real (1.0 / 0.0))
  | "-inf" => some (.real (-1.0 / 0.0))
  | _ => do
    let cs := text.toList
    let literal ← Decimal.Literal.ofText? cs
    if cs.all (fun c => c == '-' || Text.isDigit c) then
      let n := Text.natOfDigits literal.whole
      return .whole (if literal.negative then -n else n)
    else return .real literal.toFloat

end Number

end Formula
