/-!
# Blank characters

The white space of the Unicode standard, together with the four information
separators. Zero-width characters (U+200B, U+FEFF) are not blank.
-/

namespace Formula.Text

def blankRanges : List (Nat × Nat) :=
  [(0x09, 0x0D), (0x1C, 0x20), (0x85, 0x85), (0xA0, 0xA0), (0x1680, 0x1680),
   (0x2000, 0x200A), (0x2028, 0x2029), (0x202F, 0x202F), (0x205F, 0x205F), (0x3000, 0x3000)]

def isBlank (c : Char) : Bool :=
  blankRanges.any fun r => r.1 ≤ c.toNat && c.toNat ≤ r.2

def squeeze (text : List Char) : List Char := text.filter (!isBlank ·)

/-- A text of blanks only; the empty text is one. -/
def isBlankText (text : List Char) : Bool := text.all isBlank

theorem squeeze_append (a b : List Char) : squeeze (a ++ b) = squeeze a ++ squeeze b :=
  List.filter_append ..

theorem squeeze_eq_nil {text : List Char} : squeeze text = [] ↔ isBlankText text = true := by
  simp [squeeze, isBlankText]

example : isBlank ' ' ∧ isBlank '\n' ∧ isBlank '\u3000' ∧ !isBlank '\u200B' := by decide

end Formula.Text
