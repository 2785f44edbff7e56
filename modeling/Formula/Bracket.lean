/-!
# Brackets

Round and square brackets group alike, but a bracket closes only one of its own
kind. A text is cut into plain segments and top-level groups, and every position
counts the characters before it in that text.
-/

namespace Formula

inductive Bracket where
  | round
  | square
  deriving DecidableEq

namespace Bracket

def opener : Bracket → Char
  | .round => '('
  | .square => '['

def closer : Bracket → Char
  | .round => ')'
  | .square => ']'

inductive Mark where
  | opener (b : Bracket)
  | closer (b : Bracket)
  | plain
  deriving DecidableEq

def mark : Char → Mark
  | '(' => .opener .round
  | '[' => .opener .square
  | ')' => .closer .round
  | ']' => .closer .square
  | _ => .plain

@[simp] theorem mark_opener (b : Bracket) : mark b.opener = .opener b := by cases b <;> rfl

@[simp] theorem mark_closer (b : Bracket) : mark b.closer = .closer b := by cases b <;> rfl

/-- The change in depth at a character, whatever the kind of its bracket. -/
def Mark.rise : Mark → Int
  | .opener _ => 1
  | .closer _ => -1
  | .plain => 0

/-- A stretch of a text at top level. -/
inductive Segment where
  | plain (position : Nat) (text : List Char)
  /-- What stands strictly inside a pair whose opener is at `position`. -/
  | group (bracket : Bracket) (position : Nat) (text : List Char)
  deriving DecidableEq

def Segment.source : Segment → List Char
  | .plain _ text => text
  | .group b _ text => b.opener :: (text ++ [b.closer])

inductive Fault where
  | unexpectedCloser (bracket : Bracket) (position : Nat)
  | unclosed (bracket : Bracket) (start length : Nat)
  deriving DecidableEq

/-- The plain segment that ends before `position`, if it is not empty. Its
characters are held in reverse. -/
def plainBefore (position : Nat) (held : List Char) : List Segment :=
  if held.isEmpty then [] else [.plain (position - held.length) held.reverse]

/-- Cuts the rest of a text whose first character is at `position`. The brackets
still open come with their positions, the last one first; `held` is, in reverse,
what the current segment has so far. -/
def segmentsFrom (position : Nat) (opened : List (Bracket × Nat)) (held : List Char) :
    List Char → Except Fault (List Segment)
  | [] =>
    match opened with
    | [] => .ok (plainBefore position held)
    | (b, start) :: _ => .error (.unclosed b start position)
  | c :: rest =>
    match mark c, opened with
    | .plain, _ => segmentsFrom (position + 1) opened (c :: held) rest
    | .opener b, [] => do
      let later ← segmentsFrom (position + 1) [(b, position)] [] rest
      return plainBefore position held ++ later
    | .opener b, _ :: _ =>
      segmentsFrom (position + 1) ((b, position) :: opened) (c :: held) rest
    | .closer b, [] => .error (.unexpectedCloser b position)
    | .closer b, (b', start) :: outer =>
      if b = b' then
        match outer with
        | [] => do
          let later ← segmentsFrom (position + 1) [] [] rest
          return .group b start held.reverse :: later
        | _ :: _ => segmentsFrom (position + 1) outer (c :: held) rest
      else .error (.unexpectedCloser b position)

def segments (text : List Char) : Except Fault (List Segment) := segmentsFrom 0 [] [] text

end Bracket

end Formula
