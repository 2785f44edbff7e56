import Formula.Datum

/-!
# Signatures of functions

A function is known by its name and the range of argument counts that it accepts.
-/

namespace Formula

/-- A name and the argument counts it accepts, from `least` to `most`. Signatures
can be stored before anything about them is checked, so all three are data. -/
structure Signature where
  name : Datum
  least : Datum
  most : Datum

namespace Signature

def of (name : String) (least most : Int) : Signature :=
  ⟨.text name, .scalar (.whole least), .scalar (.whole most)⟩

/-- Whether that many arguments are accepted, `none` when a bound that matters
is no number. -/
def accepts (s : Signature) (count : Int) : Option Bool := do
  let count : Datum := .scalar (.whole count)
  if ← s.least.atMost? count then count.atMost? s.most else return false

def text (s : Signature) : String := s!"{s.name.words}({s.least.words}:{s.most.words})"

def same (s t : Signature) : Bool :=
  s.name.same t.name && s.least.same t.least && s.most.same t.most

def isAtomic (s : Signature) : Bool := s.name.isAtom && s.least.isAtom && s.most.isAtom

def less? (s t : Signature) : Option Bool :=
  if !s.name.same t.name then s.name.less? t.name
  else if !s.least.same t.least then s.least.less? t.least
  else if !s.most.same t.most then s.most.less? t.most
  else some false

end Signature

end Formula
