import Formula.Decimal.Shortest

/-!
# Layout of decimal numbers

Digits are set out positionally or with an exponent. What differs between the
formats of this library is gathered in one record per format.
-/

namespace Formula.Decimal

/-- The decisions of a format that writes the fewest digits that read back. -/
structure Style where
  nan : String
  infinity : String
  /-- Whether a mantissa of one digit is followed by `.0` before the exponent. -/
  pointBeforeExponent : Bool

def Style.plain : Style := ⟨"nan", "inf", false⟩

def digitsOf (n : Nat) : List Char := Nat.toDigits 10 n

def exponentText (e : Int) : List Char :=
  let digits := digitsOf e.natAbs
  (if e < 0 then '-' else '+') :: (if digits.length < 2 then '0' :: digits else digits)

def mantissaText (alone : List Char) : List Char → List Char
  | [] => []
  | [d] => d :: alone
  | d :: rest => d :: '.' :: rest

def positional (digits : List Char) (whole : Int) : List Char :=
  if whole ≤ 0 then '0' :: '.' :: (List.replicate (-whole).toNat '0' ++ digits)
  else
    let front := digits.take whole.toNat
    let back := digits.drop whole.toNat
    front ++ List.replicate (whole.toNat - front.length) '0' ++
      '.' :: (if back.isEmpty then ['0'] else back)

/-- Positional when the decimal exponent is at least -4 and below 16. -/
def Style.layout (style : Style) (d : Digits) : List Char :=
  let digits := digitsOf d.coefficient
  let lead := d.exponent + digits.length - 1
  if -4 ≤ lead && lead < 16 then positional digits (lead + 1)
  else
    mantissaText (if style.pointBeforeExponent then ['.', '0'] else []) digits ++
      'e' :: exponentText lead

def signed (negative : Bool) (text : List Char) : List Char :=
  if negative then '-' :: text else text

def Style.text (style : Style) (x : Float) : String :=
  match Reading.ofFloat x with
  | .nan => style.nan
  | .infinite negative => String.ofList (signed negative style.infinity.toList)
  | .finite negative 0 _ => String.ofList (signed negative ['0', '.', '0'])
  | .finite negative m e => String.ofList (signed negative (style.layout (shortest m e)))

def scientific (places : Nat) (x : Float) : String :=
  match Reading.ofFloat x with
  | .nan => "nan"
  | .infinite negative => String.ofList (signed negative "inf".toList)
  | .finite negative 0 _ =>
    String.ofList (signed negative
      (mantissaText [] (List.replicate (places + 1) '0') ++ 'e' :: exponentText 0))
  | .finite negative m e =>
    let d := nearest (places + 1) m e
    String.ofList (signed negative
      (mantissaText [] (digitsOf d.coefficient) ++ 'e' :: exponentText (d.exponent + places)))

end Formula.Decimal
