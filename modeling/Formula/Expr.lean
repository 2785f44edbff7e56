import Formula.Operator
import Formula.Function

/-!
# Formula trees

A tree is numeric, or a comparison of two trees, or missing. Nothing stops a
comparison or a missing tree from standing below a numeric operator, nor any
datum from standing as a constant or a name: such a tree can be stored and
shown, but not evaluated.
-/

namespace Formula

inductive Expr where
  | missing
  | const (value : Datum)
  | var (name : Datum)
  | unary (op : UnaryOp) (operand : Expr)
  | binary (op : BinaryOp) (left right : Expr)
  | call (callee : Definition) (arguments : List Expr)
  | compare (relation : Relation) (left right : Expr)

namespace Expr

instance : Inhabited Expr := ⟨.missing⟩

/-- Whether the tree can be an operand: neither a comparison nor missing. -/
def isNumeric : Expr → Bool
  | .missing | .compare .. => false
  | _ => true

def whole (n : Int) : Expr := .const (.scalar (.whole n))

def real (x : Float) : Expr := .const (.scalar (.real x))

def named (name : String) : Expr := .var (.text name)

def euler : Expr := .unary .exp (whole 1)

def pi : Expr := real 3.141592653589793

/-- Whether the tree is the constant e, however its one is written. -/
def isEuler : Expr → Bool
  | .unary .exp (.const d) => d.same (.scalar (.whole 1))
  | _ => false

-- ---------------------------------------------------------------------------
-- Leaves and calls, from left to right
-- ---------------------------------------------------------------------------

mutual
/-- The variables in the order in which the tree holds them, with repetitions. -/
def variableNames : Expr → List Datum
  | .missing | .const _ => []
  | .var name => [name]
  | .unary _ e => e.variableNames
  | .binary _ l r | .compare _ l r => l.variableNames ++ r.variableNames
  | .call _ es => variableNamesAll es
def variableNamesAll : List Expr → List Datum
  | [] => []
  | e :: es => e.variableNames ++ variableNamesAll es
end

mutual
/-- The definitions that are called, a call before the calls in its arguments. -/
def callees : Expr → List Definition
  | .missing | .const _ | .var _ => []
  | .unary _ e => e.callees
  | .binary _ l r | .compare _ l r => l.callees ++ r.callees
  | .call d es => d :: calleesAll es
def calleesAll : List Expr → List Definition
  | [] => []
  | e :: es => e.callees ++ calleesAll es
end

-- ---------------------------------------------------------------------------
-- Comparing and erasing
-- ---------------------------------------------------------------------------

mutual
/-- Equality of trees: numbers by exact value, definitions by signature. -/
def same : Expr → Expr → Bool
  | .missing, .missing => true
  | .const m, .const n => m.same n
  | .var x, .var y => x.same y
  | .unary p a, .unary q b => p == q && a.same b
  | .binary p a b, .binary q c d => p == q && a.same c && b.same d
  | .compare p a b, .compare q c d => p == q && a.same c && b.same d
  | .call f xs, .call g ys => f.signature.same g.signature && sameAll xs ys
  | _, _ => false
def sameAll : List Expr → List Expr → Bool
  | [], [] => true
  | x :: xs, y :: ys => x.same y && sameAll xs ys
  | _, _ => false
end

mutual
def erase : Expr → Expr
  | .missing => .missing
  | .const n => .const n
  | .var x => .var x
  | .unary p a => .unary p a.erase
  | .binary p a b => .binary p a.erase b.erase
  | .compare p a b => .compare p a.erase b.erase
  | .call d es => .call d.erase (eraseAll es)
def eraseAll : List Expr → List Expr
  | [] => []
  | e :: es => e.erase :: eraseAll es
end

mutual
def height : Expr → Nat
  | .missing | .const _ | .var _ => 1
  | .unary _ e => e.height + 1
  | .binary _ l r | .compare _ l r => max l.height r.height + 1
  | .call _ es => heightAll es + 1
def heightAll : List Expr → Nat
  | [] => 0
  | e :: es => max e.height (heightAll es)
end

end Expr

end Formula
