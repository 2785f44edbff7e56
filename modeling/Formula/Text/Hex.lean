/-!
# Hexadecimal digits of fixed width
-/

namespace Formula.Text

inductive LetterCase where
  | lower
  | upper

def hexDigit (letters : LetterCase) (n : Nat) : Char :=
  if n < 10 then Char.ofNat ('0'.toNat + n)
  else match letters with
    | .lower => Char.ofNat ('a'.toNat + (n - 10))
    | .upper => Char.ofNat ('A'.toNat + (n - 10))

/-- The last `width` hexadecimal digits of `n`. -/
def hex (letters : LetterCase) : Nat → Nat → List Char
  | 0, _ => []
  | width + 1, n => hex letters width (n / 16) ++ [hexDigit letters (n % 16)]

def hexValue? (c : Char) : Option Nat :=
  if '0' ≤ c && c ≤ '9' then some (c.toNat - '0'.toNat)
  else if 'a' ≤ c && c ≤ 'f' then some (c.toNat - 'a'.toNat + 10)
  else if 'A' ≤ c && c ≤ 'F' then some (c.toNat - 'A'.toNat + 10)
  else none

def hexNumber? (digits : List Char) : Option Nat :=
  digits.foldl (fun n c => do return 16 * (← n) + (← hexValue? c)) (some 0)

/-- A code point by name: two digits after `x`, four after `u`, eight after `U`,
as many as it needs. -/
def codePoint (letters : LetterCase) (n : Nat) : List Char :=
  if n < 0x100 then 'x' :: hex letters 2 n
  else if n < 0x10000 then 'u' :: hex letters 4 n
  else 'U' :: hex letters 8 n

end Formula.Text
