import Formula.Expr
import Formula.StoredError

/-!
# Trees as stored data

A tree is stored as a record whose field `type` names its kind. Reading ignores
fields that the kind does not have; a missing list of arguments is empty. Of a
signature only the number of arguments is checked. Bodies of functions are not
stored.
-/

namespace Formula

open Datum (field?)

/-- What a datum consists of, one after another: the items of a list, the keys of a
mapping, the characters of a text. -/
def Datum.elements : Datum → Except StoredError (List Datum)
  | .list items => .ok items
  | .mapping fields strays => .ok (fields.map (.text ·.1) ++ strays.map (.scalar ·.1))
  | .text s => .ok (s.toList.map (.text ·.toString))
  | .scalar _ => .error .unfit

def required (fields : List (String × Datum)) (name : String) : Except StoredError Datum :=
  match field? fields name with
  | some d => .ok d
  | none => .error (.missingField name)

-- ---------------------------------------------------------------------------
-- Signatures
-- ---------------------------------------------------------------------------

def Signature.toDatum (s : Signature) : Datum :=
  .record [("name", s.name), ("min_args", s.least), ("max_args", s.most)]

def Signature.ofDatum? : Datum → Except StoredError Signature
  | .mapping fields _ => do
    let name ← required fields "name"
    let least ← required fields "min_args"
    let most ← required fields "max_args"
    return ⟨name, least, most⟩
  | _ => .error .unfit

def Signature.call (s : Signature) (arguments : List Expr) : Except StoredError Expr :=
  match s.accepts arguments.length with
  | some true => .ok (.call ⟨s, none⟩ arguments)
  | some false => .error (.argumentCount s)
  | none => .error .unfit

-- ---------------------------------------------------------------------------
-- Writing
-- ---------------------------------------------------------------------------

namespace Expr

mutual
def toDatum : Expr → Datum
  | .missing => .null
  | .const d => .record [("type", .text "const"), ("value", d)]
  | .var x => .record [("type", .text "var"), ("name", x)]
  | .unary op e =>
    .record [("type", .text "unary"), ("operator", .text op.symbol), ("operand", e.toDatum)]
  | .binary op l r =>
    .record [("type", .text "binary"), ("operator", .text op.symbol), ("left", l.toDatum),
      ("right", r.toDatum)]
  | .call d es =>
    .record [("type", .text "call"), ("definition", d.signature.toDatum),
      ("arguments", .list (toDatumAll es))]
  | .compare r a b =>
    .record [("type", .text "compare"), ("operator", .text r.symbol), ("left", a.toDatum),
      ("right", b.toDatum)]
def toDatumAll : List Expr → List Datum
  | [] => []
  | e :: es => e.toDatum :: toDatumAll es
end

-- ---------------------------------------------------------------------------
-- Reading
-- ---------------------------------------------------------------------------

def readSymbol {α : Type} (ofSymbol? : String → Option α) (refuse : Datum → StoredError)
    (d : Datum) : Except StoredError α :=
  match d with
  | .text s => match ofSymbol? s with
    | some op => .ok op
    | none => .error (refuse d)
  | _ => .error (refuse d)

def ofAtom? : Datum → Except StoredError Expr
  | .scalar .absent => .ok .missing
  | _ => .error .notRecord

mutual
def ofDatum? (d : Datum) : Except StoredError Expr :=
  match d with
  | .scalar .absent => .ok .missing
  | .mapping fields _ =>
    match field? fields "type" with
    | some (.text "const") => .const <$> required fields "value"
    | some (.text "var") => .var <$> required fields "name"
    | some (.text "unary") => do
      let op ← readSymbol UnaryOp.ofSymbol? .notUnary (← required fields "operator")
      let e ← ofField? fields "operand"
      return .unary op e
    | some (.text "binary") => do
      let op ← readSymbol BinaryOp.ofSymbol? .notBinary (← required fields "operator")
      let l ← ofField? fields "left"
      let r ← ofField? fields "right"
      return .binary op l r
    | some (.text "call") => do
      let s ← Signature.ofDatum? (← required fields "definition")
      let es ← ofArguments? fields
      s.call es
    | some (.text "compare") => do
      let r ← readSymbol Relation.ofSymbol? .notRelation (← required fields "operator")
      let a ← ofField? fields "left"
      let b ← ofField? fields "right"
      return .compare r a b
    | some kind => .error (.unknownKind kind)
    | none => .error (.unknownKind .null)
  | _ => .error .notRecord
termination_by sizeOf d
def ofField? (fields : List (String × Datum)) (name : String) : Except StoredError Expr :=
  match _h : field? fields name with
  | some d => ofDatum? d
  | none => .error (.missingField name)
termination_by sizeOf fields
decreasing_by exact Datum.sizeOf_field?_lt _h
/-- The trees in the field of arguments, or of the elements of what stands there: of the
keys, if that is a mapping. -/
def ofArguments? (fields : List (String × Datum)) : Except StoredError (List Expr) :=
  match _h : field? fields "arguments" with
  | none => .ok []
  | some (.list items) => ofDatumAll? items
  | some d => do (← d.elements).mapM ofAtom?
termination_by sizeOf fields
decreasing_by
  have := Datum.sizeOf_field?_lt _h
  simp at this
  omega
def ofDatumAll? (ds : List Datum) : Except StoredError (List Expr) :=
  match ds with
  | [] => .ok []
  | d :: rest => do
    let e ← ofDatum? d
    let es ← ofDatumAll? rest
    return e :: es
termination_by sizeOf ds
end

end Expr

end Formula
