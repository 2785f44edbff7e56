/-!
# Doubles as exact binary fractions

A finite double is a whole mantissa times a power of two. All decimal output
starts from that exact reading, and all decimal input is rounded to it.
-/

namespace Formula.Decimal

/-- What the 64 bits of a double say. -/
inductive Reading where
  | nan
  | infinite (negative : Bool)
  /-- The double `± mantissa * 2 ^ exponent`. -/
  | finite (negative : Bool) (mantissa : Nat) (exponent : Int)

def Reading.ofFloat (x : Float) : Reading :=
  let bits : Nat := x.toBits.toNat
  let negative := bits / Nat.pow 2 63 == 1
  let scale : Nat := bits / Nat.pow 2 52 % Nat.pow 2 11
  let fraction : Nat := bits % Nat.pow 2 52
  if scale == Nat.pow 2 11 - 1 then
    if fraction == 0 then .infinite negative else .nan
  else if scale == 0 then .finite negative fraction (-1074)
  else .finite negative (Nat.pow 2 52 + fraction) ((scale : Int) - 1075)

/-- `base ^ e` as a factor above the line and a factor below it. -/
def power (base : Nat) (e : Int) : Nat × Nat :=
  if 0 ≤ e then (Nat.pow base e.toNat, 1) else (1, Nat.pow base (-e).toNat)

def isBelow (num den : Nat) (k : Int) : Bool :=
  let p := power 10 k
  num * p.2 < den * p.1

def firstAbove (num den : Nat) : Nat → Int → Int
  | 0, k => k
  | fuel + 1, k => if isBelow num den k then k else firstAbove num den fuel (k + 1)

/-- The least `k` with `num / den < 10 ^ k`, for positive `num` and `den`: the
number of digits before the point. The binary lengths leave few candidates. -/
def wholeDigits (num den : Nat) : Int :=
  let bits : Int := num.log2 - den.log2
  firstAbove num den 8 (((bits - 1) * 30103).fdiv 100000 - 1)

/-- The quotient rounded to the nearest whole number, a half going to the even
neighbour. -/
def roundDiv (num den : Nat) : Nat :=
  let q := num / den
  let r := num % den
  if 2 * r < den then q
  else if den < 2 * r then q + 1
  else if q % 2 == 0 then q else q + 1

/-- The double nearest to `± num / den`, a half going to the even neighbour. The
quotient is rounded on the grid of the doubles of its size. -/
def ofRatio (negative : Bool) (num den : Nat) : Float :=
  let bits : Int := num.log2 - den.log2
  let p := power 2 bits
  let size : Int := if num * p.2 < den * p.1 then bits - 1 else bits
  let grid := max (size - 52) (-1074)
  let g := power 2 grid
  let x := (roundDiv (num * g.2) (den * g.1)).toFloat.scaleB grid
  if negative then -x else x

/-- The double nearest to `± coefficient * 10 ^ exponent`. Exponents far outside
the range of doubles are answered without building the power of ten. -/
def toFloat (negative : Bool) (coefficient : Nat) (exponent : Int) : Float :=
  let lead : Int := (coefficient.log2 * 30103 / 100000 : Nat) + exponent
  let size : Float :=
    if coefficient == 0 || lead < -400 then 0.0
    else if 400 < lead then 1.0 / 0.0
    else Float.ofScientific coefficient (exponent < 0) exponent.natAbs
  if negative then -size else size

end Formula.Decimal
