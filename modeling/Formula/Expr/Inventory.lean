import Formula.Evaluation
import Formula.NameSet

/-!
# Names that a tree uses

A user who wants to evaluate a tree has to give values to its variables and
bodies to its functions. Both questions walk the whole tree, which must not lack
a part nor have more levels than are walked, and gather names without parts.
-/

namespace Formula.Expr

/-- Walks a tree with `room` levels; every part must fit. -/
def walk (fits : Expr → Bool) : Nat → Expr → Except EvalError Unit
  | 0, _ => .error .tooDeep
  | room + 1, e =>
    if fits e then
      match e with
      | .missing => .error .missingTree
      | .const _ | .var _ => .ok ()
      | .unary _ e => walk fits room e
      | .binary _ l r | .compare _ l r => do
        walk fits room l
        walk fits room r
      | .call _ es => es.forM (walk fits room)
    else .error .unfitName

def fitsVariables : Expr → Bool
  | .var name => name.isAtom
  | _ => true

def fitsCalls : Expr → Bool
  | .call d _ => d.signature.isAtomic
  | _ => true

def usedVariablesWithin (room : Nat) (e : Expr) : Except EvalError NameSet := do
  e.walk fitsVariables room
  match NameSet.ofData? e.variableNames with
  | some names => return names
  | none => throw .unfitName

def usedFunctionsWithin (room : Nat) (e : Expr) : Except EvalError FunctionTable := do
  e.walk fitsCalls room
  return .ofList (e.callees.map (·.erase))

def usedVariables (e : Expr) : Except EvalError NameSet := e.usedVariablesWithin levels

def usedFunctions (e : Expr) : Except EvalError FunctionTable := e.usedFunctionsWithin levels

end Formula.Expr
