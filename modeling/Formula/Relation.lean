import Formula.Operator
import Formula.Bracket
import Formula.Text.Blank

/-!
# Relations between the sides of a text

A text is cut at the relational operators at depth zero, the longer operator
first. Nothing is lost: the sides, blank ones included, and the operators between
them give the text again.
-/

namespace Formula

structure Chain where
  first : List Char
  links : List (Relation × List Char)
  deriving DecidableEq

namespace Chain

def source (c : Chain) : List Char :=
  c.first ++ c.links.flatMap fun link => link.1.symbol.toList ++ link.2

def link (side : List Char) (r : Relation) (later : Chain) : Chain :=
  ⟨side, (r, later.first) :: later.links⟩

/-- Cuts the rest of a text; `held` is, in reverse, what the current side has so
far. The depth counts brackets without regard to their kind. -/
def cutFrom (depth : Int) (held : List Char) : List Char → Chain
  | [] => ⟨held.reverse, []⟩
  | c :: rest =>
    if depth = 0 then
      match c, rest with
      | '<', '=' :: rest => link held.reverse .lessEqual (cutFrom 0 [] rest)
      | '>', '=' :: rest => link held.reverse .greaterEqual (cutFrom 0 [] rest)
      | '<', rest => link held.reverse .less (cutFrom 0 [] rest)
      | '>', rest => link held.reverse .greater (cutFrom 0 [] rest)
      | '=', rest => link held.reverse .equals (cutFrom 0 [] rest)
      | c, rest => cutFrom (depth + (Bracket.mark c).rise) (c :: held) rest
    else cutFrom (depth + (Bracket.mark c).rise) (c :: held) rest

def ofText (text : List Char) : Chain := cutFrom 0 [] text

/-- Of the relations after the side `left`, the first with a blank side before
it, or the last when a blank side ends the chain. -/
def unpaired? (left : List Char) : List (Relation × List Char) → Option Relation
  | [] => none
  | (r, right) :: rest =>
    if Text.isBlankText left || (rest.isEmpty && Text.isBlankText right) then some r
    else unpaired? right rest

inductive Piece where
  | side (text : List Char)
  | relation (r : Relation)
  deriving DecidableEq

def sidePiece (text : List Char) : List Piece :=
  if Text.isBlankText text then [] else [.side text]

/-- The chain without its blank sides. An operator without a side stays visible
next to another operator or at an end. -/
def pieces (c : Chain) : List Piece :=
  sidePiece c.first ++ c.links.flatMap fun link => .relation link.1 :: sidePiece link.2

end Chain

end Formula
