import Formula.Vocabulary
import Formula.Text.Digit
import Formula.Text.Blank

/-!
# Tokens

A text without brackets is read, blanks left out, as words of a vocabulary,
decimal numbers, operators, and fragments in which none of these starts. A word
wins over a number, and a number over an operator.
-/

namespace Formula

inductive TokenKind where
  | word
  | number
  | operator
  | unknown
  deriving DecidableEq

structure Token where
  kind : TokenKind
  text : List Char
  deriving DecidableEq

namespace Token

def isOperator (c : Char) : Bool :=
  c == '+' || c == '-' || c == '^' || c == '/' || c == '*'

/-- The longest decimal number at the start of a text: digits, and a period only
with digits after it. Empty if there is none. -/
def numeral (text : List Char) : List Char :=
  let whole := text.takeWhile Text.isDigit
  if whole.isEmpty then []
  else match text.drop whole.length with
    | '.' :: rest =>
      let fraction := rest.takeWhile Text.isDigit
      if fraction.isEmpty then whole else whole ++ '.' :: fraction
    | _ => whole

def first? (v : Vocabulary) (text : List Char) : Option Token :=
  let word := v.longest text
  let number := numeral text
  if !word.isEmpty then some ⟨.word, word⟩
  else if !number.isEmpty then some ⟨.number, number⟩
  else match text with
    | [] => none
    | c :: _ => if isOperator c then some ⟨.operator, [c]⟩ else none

def fragment (held : List Char) : List Token :=
  if held.isEmpty then [] else [⟨.unknown, held.reverse⟩]

/-- The tokens of a text without blanks; `held` is, in reverse, the fragment that
the text continues. -/
def readFrom (v : Vocabulary) (held : List Char) (text : List Char) : List Token :=
  match text with
  | [] => fragment held
  | c :: rest =>
    match first? v (c :: rest) with
    | some token => fragment held ++ token :: readFrom v [] (rest.drop (token.text.length - 1))
    | none => readFrom v (c :: held) rest
termination_by text.length
decreasing_by all_goals (simp; try omega)

def read (v : Vocabulary) (text : List Char) : List Token := readFrom v [] (Text.squeeze text)

end Token

end Formula
