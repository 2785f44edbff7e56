import Formula.Datum
import Formula.Decimal.Layout
import Formula.Decimal.Literal
import Formula.Text.Hex

/-!
# Plain YAML scalars

A scalar without quotes stands for nothing, a truth value or a number when it has
the form of one, and for a text otherwise. A text of such a form needs quotes.
-/

namespace Formula.Yaml

open Text (isDigit natOfDigits)

def spellings (small capital : String) : List String :=
  let letters := small.toList
  [small, capital ++ String.ofList (letters.drop 1), String.ofList (letters.map Char.toUpper)]

def nullWords : List String := ["", "~"] ++ spellings "null" "N"

def trueWords : List String := spellings "yes" "Y" ++ spellings "true" "T" ++ spellings "on" "O"

def falseWords : List String := spellings "no" "N" ++ spellings "false" "F" ++ spellings "off" "O"

/-- Words that mean something else than the text they are. -/
def otherWords : List String := ["=", "<<"]

def isDigitOrGap (c : Char) : Bool := isDigit c || c == '_'

def withoutGaps (text : List Char) : List Char := text.filter (· != '_')

-- ---------------------------------------------------------------------------
-- Whole numbers
-- ---------------------------------------------------------------------------

def natInBase? (base : Nat) (text : List Char) : Option Nat :=
  if text.isEmpty then none
  else (withoutGaps text).foldl (fun n? c => do
    let n ← n?
    let d ← Text.hexValue? c
    if d < base then some (base * n + d) else none) (some 0)

/-- The numbers below sixty that make up a text, each after a colon. -/
def sixtieths? : List Char → Option (List Nat)
  | [] => some []
  | [':', d] => if isDigit d then some [natOfDigits [d]] else none
  | ':' :: d :: e :: rest =>
    if isDigit d && e == ':' then do return natOfDigits [d] :: (← sixtieths? (e :: rest))
    else if isDigit d && isDigit e && d < '6' then do
      return natOfDigits [d, e] :: (← sixtieths? rest)
    else none
  | _ => none

/-- The whole number that an unsigned text writes. A leading zero announces
another base: eight, two after `0b`, sixteen after `0x`. Numbers after colons
count sixtieths. -/
def natural? (text : List Char) : Option Nat :=
  match text with
  | [] => none
  | ['0'] => some 0
  | '0' :: 'b' :: rest => natInBase? 2 rest
  | '0' :: 'x' :: rest => natInBase? 16 rest
  | '0' :: rest => natInBase? 8 rest
  | c :: _ =>
    if isDigit c then do
      let whole := text.takeWhile isDigitOrGap
      let parts ← sixtieths? (text.drop whole.length)
      return parts.foldl (60 * · + ·) (natOfDigits (withoutGaps whole))
    else none

def whole? (text : List Char) : Option Int :=
  let (negative, unsigned) := Decimal.Literal.sign text
  (natural? unsigned).map fun n => if negative then -(n : Int) else n

-- ---------------------------------------------------------------------------
-- Doubles
-- ---------------------------------------------------------------------------

def exponent? (text : List Char) : Option Int :=
  match text with
  | [] => some 0
  | _ :: c :: _ => if c == '+' || c == '-' then Decimal.Literal.exponentPart? text else none
  | _ => none

/-- The double that an unsigned text writes: digits, a period, and digits, of which
one side may lack, and perhaps an exponent. -/
def decimal? (text : List Char) : Option Float := do
  let whole := text.takeWhile isDigitOrGap
  match text.drop whole.length with
  | '.' :: rest =>
    let fraction := rest.takeWhile isDigitOrGap
    let first := if whole.isEmpty then fraction else whole
    if first.head?.any isDigit then
      let e ← exponent? (rest.drop fraction.length)
      some (Decimal.Literal.toFloat ⟨false, withoutGaps whole, withoutGaps fraction, e⟩)
    else none
  | _ => none

/-- The double that an unsigned text writes with sixtieths after colons, the last
of which has a period. -/
def sexagesimal? (text : List Char) : Option Float := do
  let whole := text.takeWhile isDigitOrGap
  let sixtieths := (text.drop whole.length).takeWhile (· != '.')
  let parts ← sixtieths? sixtieths
  match text.drop (whole.length + sixtieths.length), parts.reverse with
  | '.' :: fraction, last :: earlier =>
    if whole.head?.any isDigit && fraction.all isDigitOrGap then
      let x := Decimal.Literal.toFloat
        ⟨false, Decimal.digitsOf last, withoutGaps fraction, 0⟩
      let digits := earlier ++ [natOfDigits (withoutGaps whole)]
      some (digits.foldl (fun (sum : Float × Float) d =>
        (sum.1 + d.toFloat * (60.0 * sum.2), 60.0 * sum.2)) (x, 1.0)).1
    else none
  | _, _ => none

def real? (text : List Char) : Option Float :=
  let (negative, unsigned) := Decimal.Literal.sign text
  let isSigned := unsigned.length < text.length
  if [".nan", ".NaN", ".NAN"].any (·.toList == text) then some (0.0 / 0.0)
  else if isSigned && (unsigned.drop 1).head?.any isDigit && unsigned.head? == some '.' then none
  else
    let size? := if [".inf", ".Inf", ".INF"].any (·.toList == unsigned) then some (1.0 / 0.0)
      else (decimal? unsigned).or (sexagesimal? unsigned)
    size?.map fun x => if negative then -x else x

-- ---------------------------------------------------------------------------
-- Dates
-- ---------------------------------------------------------------------------

def afterDigits? (least most : Nat) (text : List Char) : Option (List Char) :=
  let count := ((text.take most).takeWhile isDigit).length
  if least ≤ count then some (text.drop count) else none

def after? (c : Char) (text : List Char) : Option (List Char) :=
  if text.head? == some c then some (text.drop 1) else none

def isBlank (c : Char) : Bool := c == ' ' || c == '\t'

def isZone (text : List Char) : Bool :=
  match text.dropWhile isBlank with
  | [] => text.isEmpty
  | ['Z'] => true
  | c :: rest =>
    (c == '+' || c == '-') && (afterDigits? 1 2 rest).any fun rest =>
      rest.isEmpty || ((after? ':' rest).bind (afterDigits? 2 2)).any (·.isEmpty)

def isTime (text : List Char) : Bool :=
  let rest? := do
    let rest ← afterDigits? 1 2 text
    let rest ← afterDigits? 2 2 (← after? ':' rest)
    afterDigits? 2 2 (← after? ':' rest)
  rest?.any fun rest =>
    match rest with
    | '.' :: rest => isZone (rest.dropWhile isDigit)
    | rest => isZone rest

def isDate (text : List Char) : Bool :=
  let rest? (least : Nat) := do
    let rest ← afterDigits? 4 4 text
    let rest ← afterDigits? least 2 (← after? '-' rest)
    afterDigits? least 2 (← after? '-' rest)
  (rest? 2).any (·.isEmpty) || (rest? 1).any fun rest =>
    match rest with
    | 'T' :: rest | 't' :: rest => isTime rest
    | c :: _ => isBlank c && isTime (rest.dropWhile isBlank)
    | [] => false

-- ---------------------------------------------------------------------------
-- Scalars
-- ---------------------------------------------------------------------------

def plain (text : List Char) : Datum :=
  let s := String.ofList text
  if nullWords.contains s then .null
  else if trueWords.contains s then .scalar (.truth true)
  else if falseWords.contains s then .scalar (.truth false)
  else match whole? text, real? text with
    | some n, _ => .scalar (.whole n)
    | none, some x => .scalar (.real x)
    | none, none => .text s

def isAmbiguous (s : String) : Bool :=
  otherWords.contains s || isDate s.toList ||
    match plain s.toList with
    | .text _ => false
    | _ => true

end Formula.Yaml
