import Formula.Datum
import Formula.Decimal.Literal
import Formula.Text.Hex
import Formula.Text.Units

/-!
# Stored data from JSON text

Standard JSON with three more words for doubles that are no numbers. A number
with a period or an exponent is a double and any other is whole. Of two fields
with one name the later one counts.
-/

namespace Formula.Json

open Text (isDigit natOfDigits hexNumber?)

def isSpace (c : Char) : Bool := c == ' ' || c == '\t' || c == '\n' || c == '\r'

def skipSpace (text : List Char) : List Char := text.dropWhile isSpace

-- ---------------------------------------------------------------------------
-- Texts
-- ---------------------------------------------------------------------------

def simpleEscape? : Char → Option Char
  | '"' => some '"'
  | '\\' => some '\\'
  | '/' => some '/'
  | 'b' => some '\x08'
  | 'f' => some '\x0C'
  | 'n' => some '\n'
  | 'r' => some '\r'
  | 't' => some '\t'
  | _ => none

def units? : List Char → Option (List Nat × List Char)
  | [] => none
  | '"' :: rest => some ([], rest)
  | '\\' :: 'u' :: a :: b :: c :: d :: rest => do
    let unit ← hexNumber? [a, b, c, d]
    let (units, after) ← units? rest
    return (unit :: units, after)
  | '\\' :: e :: rest => do
    let c ← simpleEscape? e
    let (units, after) ← units? rest
    return (c.toNat :: units, after)
  | c :: rest => do
    if c < ' ' then none
    let (units, after) ← units? rest
    return (c.toNat :: units, after)

def text? (text : List Char) : Option (String × List Char) := do
  let (units, after) ← units? text
  return (String.ofList (Text.ofUnits units), after)

-- ---------------------------------------------------------------------------
-- Numbers and words
-- ---------------------------------------------------------------------------

def words : List (List Char × Number) :=
  [("null".toList, .absent), ("true".toList, .truth true), ("false".toList, .truth false),
   ("NaN".toList, .real (0.0 / 0.0)), ("Infinity".toList, .real (1.0 / 0.0)),
   ("-Infinity".toList, .real (-1.0 / 0.0))]

def exponent? (text : List Char) : Option (Int × List Char) :=
  match text with
  | c :: rest =>
    if c == 'e' || c == 'E' then
      let (negative, digits) := Decimal.Literal.sign rest
      let n : Int := natOfDigits (digits.takeWhile isDigit)
      match digits with
      | d :: _ =>
        if isDigit d then some (if negative then -n else n, digits.dropWhile isDigit) else none
      | [] => none
    else none
  | [] => none

/-- The digits before the point: a leading zero stands alone. -/
def wholePart (text : List Char) : List Char :=
  match text with
  | '0' :: _ => ['0']
  | _ => text.takeWhile isDigit

def number? (text : List Char) : Option (Number × List Char) :=
  let (negative, unsigned) := match text with
    | '-' :: rest => (true, rest)
    | _ => (false, text)
  let whole := wholePart unsigned
  let afterWhole := unsigned.drop whole.length
  let (fraction, afterFraction) := match afterWhole with
    | '.' :: d :: rest =>
      if isDigit d then (d :: rest.takeWhile isDigit, rest.dropWhile isDigit) else ([], afterWhole)
    | _ => ([], afterWhole)
  let real (e : Int) : Number := .real (Decimal.Literal.toFloat ⟨negative, whole, fraction, e⟩)
  if whole.isEmpty then none
  else match exponent? afterFraction, fraction with
    | some (e, after), _ => some (real e, after)
    | none, [] =>
      let n : Int := natOfDigits whole
      some (.whole (if negative then -n else n), afterWhole)
    | none, _ => some (real 0, afterFraction)

def scalar? (text : List Char) : Option (Datum × List Char) :=
  match words.find? (·.1.isPrefixOf text) with
  | some (word, n) => some (.scalar n, text.drop word.length)
  | none => do
    let (n, after) ← number? text
    return (.scalar n, after)

-- ---------------------------------------------------------------------------
-- Documents
-- ---------------------------------------------------------------------------

mutual
def value? (fuel : Nat) (text : List Char) : Option (Datum × List Char) :=
  match fuel with
  | 0 => none
  | fuel + 1 =>
    match text with
    | '"' :: rest => do
      let (s, after) ← text? rest
      return (.text s, after)
    | '[' :: rest =>
      match skipSpace rest with
      | ']' :: after => some (.list [], after)
      | rest => do
        let (items, after) ← items? fuel rest
        return (.list items, after)
    | '\x7b' :: rest =>
      match skipSpace rest with
      | '\x7d' :: after => some (.record [], after)
      | rest => do
        let (fields, after) ← fields? fuel [] rest
        return (.record fields, after)
    | text => scalar? text
def items? (fuel : Nat) (text : List Char) : Option (List Datum × List Char) :=
  match fuel with
  | 0 => none
  | fuel + 1 => do
    let (d, after) ← value? fuel text
    match skipSpace after with
    | ',' :: rest => do
      let (ds, after) ← items? fuel (skipSpace rest)
      return (d :: ds, after)
    | ']' :: rest => return ([d], rest)
    | _ => none
def fields? (fuel : Nat) (fields : List (String × Datum)) (text : List Char) :
    Option (List (String × Datum) × List Char) :=
  match fuel with
  | 0 => none
  | fuel + 1 =>
    match text with
    | '"' :: rest => do
      let (name, after) ← text? rest
      match skipSpace after with
      | ':' :: rest => do
        let (d, after) ← value? fuel (skipSpace rest)
        match skipSpace after with
        | ',' :: rest => fields? fuel (Datum.put (· == ·) fields name d) (skipSpace rest)
        | '\x7d' :: rest => return (Datum.put (· == ·) fields name d, rest)
        | _ => none
      | _ => none
    | _ => none
end

def read? (text : String) : Option Datum := do
  let cs := text.toList
  let (d, after) ← value? (2 * cs.length + 2) (skipSpace cs)
  if (skipSpace after).isEmpty then some d else none

end Formula.Json
