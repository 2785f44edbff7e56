import Formula.EvalError

/-!
# Declared functions

A formula may call functions that its user declares: a name with the range of
argument counts it accepts, and perhaps a body that computes it. A table keeps
one definition per signature, in the order of declaration.
-/

namespace Formula

-- ---------------------------------------------------------------------------
-- Bodies
-- ---------------------------------------------------------------------------

/-- Where an argument is evaluated: with the values of the call or with none, some names bound
anew, and with the functions of the table or with none. -/
structure Scope where
  keepsValues : Bool := true
  bound : List (Datum × Number) := []
  keepsFunctions : Bool := true

/-- How a body of the user's own goes on: it asks for the values of arguments, one after another,
and does with each of them, or with the lack of it, what it likes. -/
inductive Script where
  | answer (result : Except EvalError (Option Float))
  | ask (position : Nat) (scope : Scope) (next : Except EvalError (Option Float) → Script)

/-- How a function is computed from its arguments, which it receives unevaluated. -/
inductive Body where
  | sum
  | product
  | count
  | first
  | last
  /-- The first argument where `x` is ten and no other variable has a value. -/
  | atTen
  /-- The first argument where no function has a body from the table. -/
  | isolated
  /-- The second argument, which must be there, where `x` has the value of the first. -/
  | binding
  | nothing
  | constant (value : Number)
  /-- A body of the user's own, which sees its arguments as they are stored. -/
  | script (start : List Datum → Script)

-- ---------------------------------------------------------------------------
-- Definitions
-- ---------------------------------------------------------------------------

structure Definition where
  signature : Signature
  body : Option Body

namespace Definition

def isImplemented (d : Definition) : Bool := d.body.isSome

def erase (d : Definition) : Definition := { d with body := none }

end Definition

def keepFirst : List Definition → List Definition
  | [] => []
  | d :: rest => d :: (keepFirst rest).filter fun e => !d.signature.same e.signature

def Distinct (ds : List Definition) : Prop :=
  ds.Pairwise fun d e => d.signature.same e.signature = false

theorem distinct_keepFirst (ds : List Definition) : Distinct (keepFirst ds) := by
  induction ds with
  | nil => exact .nil
  | cons d rest ih =>
    refine List.pairwise_cons.mpr ⟨fun e he => ?_, ih.sublist List.filter_sublist⟩
    simpa using (List.mem_filter.mp he).2

/-- Definitions in the order of declaration, one per signature. -/
structure FunctionTable where
  definitions : List Definition
  distinct : Distinct definitions

namespace FunctionTable

instance : EmptyCollection FunctionTable := ⟨⟨[], .nil⟩⟩

instance : Inhabited FunctionTable := ⟨∅⟩

/-- A later definition with the signature of an earlier one is dropped, even when
only the later one has a body. -/
def ofList (ds : List Definition) : FunctionTable := ⟨keepFirst ds, distinct_keepFirst ds⟩

def signatures (t : FunctionTable) : List Signature := t.definitions.map (·.signature)

def ascending? (t : FunctionTable) : Option (List Signature) :=
  Formula.ascending? Signature.less? t.signatures

def names (t : FunctionTable) : List Datum := t.signatures.map (·.name)

def textNames (t : FunctionTable) : List String := t.names.filterMap (·.text?)

def byName? (t : FunctionTable) (name : Datum) : Option Definition :=
  t.definitions.find? (·.signature.name.same name)

def implementation? (t : FunctionTable) (s : Signature) : Option Definition :=
  t.definitions.find? fun d => d.isImplemented && d.signature.same s

/-- The same set of signatures; order and bodies do not matter. -/
def same (t u : FunctionTable) : Bool :=
  t.signatures.all (u.signatures.any ·.same) && u.signatures.all (t.signatures.any ·.same)

end FunctionTable

end Formula
