/-!
# Characters from units of 16 bits

An escape of four hexadecimal digits names a unit, and a character beyond the
first plane takes two of them: a high and a low surrogate.
-/

namespace Formula.Text

def isHighSurrogate (unit : Nat) : Bool := 0xD800 ≤ unit && unit < 0xDC00

def isLowSurrogate (unit : Nat) : Bool := 0xDC00 ≤ unit && unit < 0xE000

def ofSurrogates (high low : Nat) : Nat := 0x10000 + (high - 0xD800) * 0x400 + (low - 0xDC00)

/-- Units and whole code points as characters: a pair of surrogates makes one. -/
def ofUnits : List Nat → List Char
  | [] => []
  | [n] => [Char.ofNat n]
  | high :: low :: rest =>
    if isHighSurrogate high && isLowSurrogate low then
      Char.ofNat (ofSurrogates high low) :: ofUnits rest
    else Char.ofNat high :: ofUnits (low :: rest)

end Formula.Text
