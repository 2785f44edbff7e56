import Formula.Name
import Formula.OrderedSet

/-!
# Names found in a text

A scan for identifiers, so that a user can be asked what still has to be
declared. An identifier right before an opening round bracket counts as a
function, any other as a variable; it is always read as long as possible, as if
no multiplication sign were ever left out.
-/

namespace Formula.Name

/-- The longest identifier at the start of the text, and the text after it.
Periods at the end of its run of characters stay outside, and then no apostrophe
follows. -/
def scan? : List Char → Option (List Char × List Char)
  | [] => none
  | c :: rest =>
    if isStart c then
      let body := trimEnd (· == '.') (rest.takeWhile isBody)
      let after := rest.drop body.length
      some (c :: (body ++ after.takeWhile isApostrophe), after.dropWhile isApostrophe)
    else none

theorem length_scan? {text name after : List Char} (h : scan? text = some (name, after)) :
    after.length < text.length := by
  cases text with
  | nil => simp [scan?] at h
  | cons c rest =>
    simp only [scan?] at h
    split at h
    · cases h
      have h1 := (List.dropWhile_sublist isApostrophe
        (l := rest.drop (trimEnd (· == '.') (rest.takeWhile isBody)).length)).length_le
      simp at h1 ⊢
      omega
    · simp at h

/-- The identifiers of a text, from left to right, none inside another. -/
def identifiers (text : List Char) : List String :=
  match _h : scan? text with
  | some (name, after) => String.ofList name :: identifiers after
  | none => match text with
    | [] => []
    | _ :: rest => identifiers rest
termination_by text.length
decreasing_by
  · exact length_scan? _h
  · simp

def calls (text : List Char) : List String :=
  match _h : scan? text with
  | some (name, '(' :: after) => String.ofList name :: calls after
  | _ => match text with
    | [] => []
    | _ :: rest => calls rest
termination_by text.length
decreasing_by
  · have := length_scan? _h
    simp at this
    omega
  · simp

def calledNames (hideBuiltins : Bool) (text : List Char) : OrderedSet String :=
  .ofList ((calls text).filter fun name =>
    !(hideBuiltins && Builtin.functionNames.contains name))

structure Undeclared where
  variableNames : OrderedSet String
  functions : OrderedSet String

/-- The names of a text: the functions, built-in ones included, and all other
identifiers that are no built-in functions. Built-in constants can be left out. -/
def undeclared (hideBuiltins : Bool) (text : List Char) : Undeclared :=
  let functions := calledNames false text
  { variableNames := .ofList ((identifiers text).filter fun name =>
      !Builtin.functionNames.contains name &&
        !(hideBuiltins && Builtin.constantNames.contains name) && name ∉ functions)
    functions }

end Formula.Name
