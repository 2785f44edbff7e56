/-!
# Decimal digits

The ten digits of ASCII. Digits of other scripts occur in no name or number.
-/

namespace Formula.Text

def isDigit (c : Char) : Bool := '0' ≤ c && c ≤ '9'

def natOfDigits (digits : List Char) : Nat :=
  digits.foldl (fun n c => 10 * n + (c.toNat - '0'.toNat)) 0

end Formula.Text
