import Formula.Decimal.Binary

/-!
# The fewest digits that read back

The reals that round to a double form an interval around it. Of the decimals in
that interval the one with the fewest digits is chosen, and of those the one
nearest to the double.
-/

namespace Formula.Decimal

/-- The number `coefficient * 10 ^ exponent`. -/
structure Digits where
  coefficient : Nat
  exponent : Int
  deriving DecidableEq

/-- The reals from `low / unit` to `high / unit` around `value / unit`; the ends
belong to it when `closed`. -/
structure Interval where
  low : Nat
  value : Nat
  high : Nat
  unit : Nat
  closed : Bool

/-- The reals that round to `mantissa * 2 ^ exponent`. Just above a power of two
the gap below is half as wide. -/
def Interval.around (mantissa : Nat) (exponent : Int) : Interval :=
  let p := power 2 (exponent - 2)
  let below := if mantissa == Nat.pow 2 52 && -1074 < exponent then 1 else 2
  { low := (4 * mantissa - below) * p.1
    value := 4 * mantissa * p.1
    high := (4 * mantissa + 2) * p.1
    unit := p.2
    closed := mantissa % 2 == 0 }

def Interval.contains (i : Interval) (d : Digits) : Bool :=
  let p := power 10 d.exponent
  let x := d.coefficient * p.1 * i.unit
  if i.closed then i.low * p.2 ≤ x && x ≤ i.high * p.2
  else i.low * p.2 < x && x < i.high * p.2

/-- The neighbour of the value on the grid `10 ^ exponent` that lies in the
interval, the nearer one when both do. -/
def Interval.onGrid? (i : Interval) (exponent : Int) : Option Digits :=
  let p := power 10 exponent
  let num := i.value * p.2
  let den := i.unit * p.1
  let below : Digits := ⟨num / den, exponent⟩
  let above : Digits := ⟨num / den + 1, exponent⟩
  match i.contains below, i.contains above with
  | true, true => if roundDiv num den == below.coefficient then some below else some above
  | true, false => some below
  | false, true => some above
  | false, false => none

def Digits.strip : Nat → Digits → Digits
  | 0, d => d
  | fuel + 1, d =>
    if d.coefficient % 10 == 0 then strip fuel ⟨d.coefficient / 10, d.exponent + 1⟩ else d

def Interval.firstOnGrid? (i : Interval) : Nat → Int → Option Digits
  | 0, _ => none
  | fuel + 1, exponent =>
    match i.onGrid? exponent with
    | some d => some (d.strip 20)
    | none => i.firstOnGrid? fuel (exponent - 1)

/-- The fewest digits that read back as the positive double
`mantissa * 2 ^ exponent`. Seventeen always suffice. -/
def shortest (mantissa : Nat) (exponent : Int) : Digits :=
  let i := Interval.around mantissa exponent
  match i.firstOnGrid? 17 (wholeDigits i.value i.unit - 1) with
  | some d => d
  | none => ⟨i.value, 0⟩

def nearest (count : Nat) (mantissa : Nat) (exponent : Int) : Digits :=
  let p := power 2 exponent
  let num := mantissa * p.1
  let grid := wholeDigits num p.2 - count
  let g := power 10 grid
  let c := roundDiv (num * g.2) (p.2 * g.1)
  if c == Nat.pow 10 count then ⟨Nat.pow 10 (count - 1), grid + 1⟩ else ⟨c, grid⟩

end Formula.Decimal
