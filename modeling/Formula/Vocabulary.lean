import Formula.Builtin
import Formula.OrderedSet

/-!
# Vocabularies

The words that a formula may contain: its declared names and the built-in ones.
They are kept with longer words first, so that the first word that fits a text
is the longest.
-/

namespace Formula

structure Word where
  letters : List Char
  deriving DecidableEq

namespace Word

def ofString (s : String) : Word := ⟨s.toList⟩

/-- Longer words first, words of one length by their code points. -/
def order : Word → Word → Ordering :=
  compareLex (fun v w => compareOn (·.letters.length) w v) (compareOn (·.letters))

instance : Std.TransCmp order :=
  inferInstanceAs (Std.TransCmp
    (compareLex (fun v w : Word => compareOn (·.letters.length) w v) (compareOn (·.letters))))

instance : Std.LawfulEqCmp order where
  eq_of_compare {v w} h := by
    simp only [order, compareLex_eq_eq, compareOn] at h
    cases v; cases w
    simp_all

instance : Ord Word := ⟨order⟩

instance : Std.TransOrd Word := inferInstanceAs (Std.TransCmp order)

instance : Std.LawfulEqOrd Word := inferInstanceAs (Std.LawfulEqCmp order)

end Word

structure Vocabulary where
  words : OrderedSet Word

namespace Vocabulary

def ofNames (variableNames functions : List String) : Vocabulary :=
  ⟨.ofList ((variableNames ++ functions ++ Builtin.constantNames ++ Builtin.functionNames).map
    .ofString)⟩

def longest (v : Vocabulary) (text : List Char) : List Char :=
  match v.words.toList.find? (·.letters.isPrefixOf text) with
  | some w => w.letters
  | none => []

/-- The longest word at a position of a text. A negative position counts from the
end. -/
def longestAt (v : Vocabulary) (text : List Char) (position : Int) : List Char :=
  v.longest (text.drop (if position < 0 then position + text.length else position).toNat)

end Vocabulary

end Formula
