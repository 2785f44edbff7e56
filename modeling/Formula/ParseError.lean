import Formula.Bracket
import Formula.Part

/-!
# Why a formula cannot be read
-/

namespace Formula

inductive ParseError where
  | invalidVariable (name : Datum)
  | invalidFunction (name : Datum)
  | unfitRange (s : Signature)
  | invalidRange (s : Signature)
  | declaredTwice (s : Signature)
  | bracket (fault : Bracket.Fault)
  | tooDeep (depth : Nat) (limit : Number)
  /-- More levels than there are: of brackets to be read, or of trees to be shown in a message. -/
  | exhausted
  | notText
  | missingOperand (operator : String)
  | argumentCount (function : String)
  | notOperand (part : Part)
  | leftover (parts : List Part)

namespace ParseError

def bracketMessage : Bracket.Fault → String
  | .unexpectedCloser b position =>
    s!"A bracket of type \"{b.closer}\" was found in unexpected context at position {position}"
  | .unclosed b start length =>
    s!"A bracket of type \"{b.opener}\" opened at position {start} " ++
      s!"was not closed before position {length}"

def message : ParseError → String
  | .invalidVariable name => s!"\"{name.words}\" is not a valid variable name"
  | .invalidFunction name => s!"\"{name.words}\" is not a valid function name"
  | .unfitRange s => s!"\"{s.text}\" declares a range that is not of numbers"
  | .invalidRange s => s!"\"{s.text}\" declares an invalid argument count range"
  | .declaredTwice s => s!"\"{s.text}\" is declared both as a variable and a function"
  | .bracket fault => bracketMessage fault
  | .tooDeep depth limit => s!"Bracket nesting depth {depth} exceeds the limit of {limit.text}"
  | .exhausted => "There are too many levels to be read"
  | .notText => "Only a text can be read"
  | .missingOperand op => s!"\"{op}\" has insufficient neighboring expressions"
  | .argumentCount f => s!"\"{f}\" received an unsupported number of arguments"
  | .notOperand part => s!"\"{part.report}\" is an unknown operation in given context"
  | .leftover parts =>
    "Some parts of the expression were left unprocessed: [" ++
      ", ".intercalate (parts.map Part.report) ++
      "]. This often happens if the multiplication operator is omitted " ++
      "while implicit multiplication is turned off"

def trees : ParseError → List Expr
  | .notOperand part => part.trees
  | .leftover parts => parts.flatMap Part.trees
  | _ => []

/-- The error that is met where a message can show so many levels of a tree: there is no error
without its message. -/
def shownWithin (levels : Nat) (err : ParseError) : ParseError :=
  if err.trees.all (·.height ≤ levels) then err else .exhausted

end ParseError

end Formula
