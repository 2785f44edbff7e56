import Formula.Decimal.Binary
import Formula.Text.Digit

/-!
# Decimal literals

The written form of a decimal number, cut into its digits, and the double it
stands for.
-/

namespace Formula.Decimal

open Text (isDigit natOfDigits)

/-- The number `± whole . fraction * 10 ^ exponent`. -/
structure Literal where
  negative : Bool
  whole : List Char
  fraction : List Char
  exponent : Int

namespace Literal

def toFloat (l : Literal) : Float :=
  Decimal.toFloat l.negative (natOfDigits (l.whole ++ l.fraction)) (l.exponent - l.fraction.length)

def sign : List Char → Bool × List Char
  | '-' :: rest => (true, rest)
  | '+' :: rest => (false, rest)
  | text => (false, text)

def fractionPart : List Char → List Char × List Char
  | '.' :: rest => (rest.takeWhile isDigit, rest.dropWhile isDigit)
  | text => ([], text)

/-- The exponent that makes up a whole text; an empty text counts as zero. -/
def exponentPart? : List Char → Option Int
  | [] => some 0
  | c :: rest =>
    let (negative, digits) := sign rest
    if (c == 'e' || c == 'E') && !digits.isEmpty && digits.all isDigit then
      some (if negative then -(natOfDigits digits : Int) else natOfDigits digits)
    else none

def ofText? (text : List Char) : Option Literal :=
  let (negative, unsigned) := sign text
  let whole := unsigned.takeWhile isDigit
  let (fraction, rest) := fractionPart (unsigned.dropWhile isDigit)
  if whole.isEmpty && fraction.isEmpty then none
  else do
    let exponent ← exponentPart? rest
    return ⟨negative, whole, fraction, exponent⟩

end Literal

def ofNumeral (text : List Char) : Float :=
  Literal.toFloat ⟨false, text.takeWhile isDigit,
    (Literal.fractionPart (text.dropWhile isDigit)).1, 0⟩

end Formula.Decimal
