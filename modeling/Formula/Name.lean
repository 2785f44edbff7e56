import Formula.Builtin
import Formula.Text.Digit

/-!
# Names that can be declared

An identifier starts with a Latin or Greek letter or an underscore, goes on with
letters, digits, underscores and periods, does not end in a period there, and may
end in apostrophes. A function may have any identifier for its name; a variable
may not start with an underscore, nor have the name of a built-in function.
-/

namespace Formula.Name

open Text (isDigit)

def isLetter (c : Char) : Bool :=
  ('a' ≤ c && c ≤ 'z') || ('A' ≤ c && c ≤ 'Z') || ('α' ≤ c && c ≤ 'ω') || ('Α' ≤ c && c ≤ 'Ω')

def isStart (c : Char) : Bool := isLetter c || c == '_'

def isBody (c : Char) : Bool := isStart c || isDigit c || c == '.'

def isApostrophe (c : Char) : Bool := c == '\''

def trimEnd (p : Char → Bool) (text : List Char) : List Char := (text.reverse.dropWhile p).reverse

def isIdentifier (text : List Char) : Bool :=
  match trimEnd isApostrophe text with
  | [] => false
  | c :: body => isStart c && body.all isBody && body.getLast? != some '.'

inductive Role where
  | variable
  | function
  deriving DecidableEq

def isValid (role : Role) (name : String) : Bool :=
  isIdentifier name.toList &&
    match role with
    | .function => true
    | .variable => name.toList.head? != some '_' && !Builtin.functionNames.contains name

end Formula.Name
