import Formula.Datum
import Formula.OrderedSet

/-!
# Sets of names

Names are texts, but stored data can have numbers in their place. A set keeps
the two apart: the texts in ascending order, and of numbers with one value the
first that came.
-/

namespace Formula

structure NameSet where
  texts : OrderedSet String
  /-- Numbers that stand in the place of names. -/
  strays : List Number

namespace NameSet

instance : EmptyCollection NameSet := ⟨⟨∅, []⟩⟩

instance : Inhabited NameSet := ⟨∅⟩

def ofTexts (texts : List String) : NameSet := ⟨.ofList texts, []⟩

def number? : Datum → Option Number
  | .scalar n => some n
  | _ => none

def distinct (ns : List Number) : List Number :=
  ns.foldl (fun ns n => if ns.any (·.same n) then ns else ns ++ [n]) []

def ofData? (ds : List Datum) : Option NameSet :=
  if ds.all (·.isAtom) then
    some ⟨.ofList (ds.filterMap (·.text?)), distinct (ds.filterMap number?)⟩
  else none

def ascending? (s : NameSet) : Option (List Datum) :=
  let texts := s.texts.toList.map Datum.text
  if s.strays.isEmpty then some texts
  else Formula.ascending? Datum.less? (texts ++ s.strays.map .scalar)

def same (s t : NameSet) : Bool :=
  s.texts == t.texts && s.strays.all (t.strays.any ·.same) && t.strays.all (s.strays.any ·.same)

end NameSet

end Formula
