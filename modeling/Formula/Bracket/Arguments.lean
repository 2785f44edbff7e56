import Formula.Bracket
import Formula.Text.Blank

/-!
# Arguments inside a pair of brackets

Arguments are separated by the commas at depth zero. The depth counts brackets
without regard to their kind and falls below zero where closers lead.
-/

namespace Formula.Bracket

def piecesFrom (depth : Int) (held : List Char) : List Char → List (List Char)
  | [] => [held.reverse]
  | c :: rest =>
    if c = ',' ∧ depth = 0 then held.reverse :: piecesFrom 0 [] rest
    else piecesFrom (depth + (mark c).rise) (c :: held) rest

def pieces (text : List Char) : List (List Char) := piecesFrom 0 [] text

/-- The pieces that are not blank. So `()` holds no argument. -/
def arguments (text : List Char) : List (List Char) :=
  (pieces text).filter (!Text.isBlankText ·)

end Formula.Bracket
