import Formula.Expr.Stored
import Formula.Options

/-!
# Options as stored data

Options are stored as a record of five fields, the names of variables in
ascending order and the functions in the order of declaration. Reading takes the
default for a field that is missing and ignores fields it does not know.
-/

namespace Formula

open Datum (field?)

namespace Datum

def names (d : Datum) : Except StoredError NameSet := do
  match NameSet.ofData? (← d.elements) with
  | some names => return names
  | none => .error .unfit

def texts (d : Datum) : Except StoredError (List String) := do
  (← d.elements).mapM fun d =>
    match d with
    | .text s => .ok s
    | _ => .error .unfit

/-- The names to declare as variables. A text is a single name. -/
def variableNames : Datum → Except StoredError NameSet
  | .text s => .ok (.ofTexts [s])
  | d => d.names

def number : Datum → Except StoredError Number
  | .scalar n => .ok n
  | _ => .error .unfit

end Datum

def Signature.gathered (s : Signature) : Except StoredError Signature :=
  if s.isAtomic then .ok s else .error .unfit

def FunctionTable.gather (ds : List Definition) : Except StoredError FunctionTable := do
  ds.forM fun d => discard d.signature.gathered
  return .ofList ds

def FunctionTable.ofDatum? (d : Datum) : Except StoredError FunctionTable := do
  let signatures ← (← d.elements).mapM fun d => do (← Signature.ofDatum? d).gathered
  return .ofList (signatures.map (⟨·, none⟩))

namespace Options

/-- Fails when the names of variables have no order. -/
def toDatum? (o : Options) : Except StoredError Datum :=
  match o.variableNames.ascending? with
  | some names =>
    .ok (.record [
      ("is_minus_negative_function", o.minusIsNegative),
      ("is_implicit_multiplication", o.implicitProduct),
      ("variable_names", .list names),
      ("custom_functions", .list (o.functions.signatures.map Signature.toDatum)),
      ("max_depth", .scalar o.maxDepth)])
  | none => .error .unfit

def optional {α : Type} (fields : List (String × Datum)) (name : String)
    (read : Datum → Except StoredError α) : Except StoredError (Option α) :=
  match field? fields name with
  | some d => some <$> read d
  | none => .ok none

def ofDatum? : Datum → Except StoredError Options
  | .mapping fields _ => do
    let settings : Settings := {
      functions := ← optional fields "custom_functions" FunctionTable.ofDatum?
      variableNames := ← optional fields "variable_names" Datum.variableNames
      minusIsNegative := field? fields "is_minus_negative_function"
      implicitProduct := field? fields "is_implicit_multiplication"
      maxDepth := ← optional fields "max_depth" Datum.number }
    ({} : Options).withSettings settings
  | _ => .error .notRecord

def ofDocument? (d : Datum) : Except StoredError Options :=
  if d.isVoid then .ok {} else ofDatum? d

end Options

end Formula
