import Formula.Name
import Formula.ParseError
import Formula.NameSet

/-!
# Checking what is declared

All variable names are checked before any function. A function must have a valid
name, a range of argument counts that is neither negative nor empty, and a name
that no variable has. Of stored data only a text can be a name.
-/

namespace Formula

namespace Name

def isValidDatum (role : Role) : Datum → Bool
  | .text name => isValid role name
  | _ => false

def Role.refuse : Role → Datum → ParseError
  | .variable => .invalidVariable
  | .function => .invalidFunction

def check (role : Role) (name : Datum) : Except ParseError Unit :=
  if isValidDatum role name then .ok () else .error (role.refuse name)

end Name

/-- Whether the range is neither negative nor empty, `none` when a bound that
matters is no number. -/
def Signature.hasRange? (s : Signature) : Option Bool := do
  if ← s.least.less? (.scalar (.whole 0)) then return false
  return !(← s.most.less? s.least)

def Signature.check (variableNames : OrderedSet String) (s : Signature) :
    Except ParseError Unit := do
  Name.check .function s.name
  match s.hasRange? with
  | none => throw (.unfitRange s)
  | some false => throw (.invalidRange s)
  | some true =>
    if s.name.text?.any (· ∈ variableNames) then throw (.declaredTwice s)

def checkDeclarations (variableNames : NameSet) (functions : List Signature) :
    Except ParseError Unit := do
  variableNames.strays.forM fun n => Name.check .variable (.scalar n)
  variableNames.texts.toList.forM fun name => Name.check .variable (.text name)
  functions.forM (Signature.check variableNames.texts)

end Formula
