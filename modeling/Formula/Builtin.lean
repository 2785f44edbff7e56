import Formula.Expr

/-!
# Names that every formula knows

Three names stand for constants and nineteen for functions. A declared variable
may take the name of a constant, a declared function either kind of name.
-/

namespace Formula

inductive Builtin where
  | unary (op : UnaryOp)
  /-- The square root, as a power of one half. -/
  | root
  | naturalLog
  | binaryLog
  | log
  deriving DecidableEq

namespace Builtin

def functions : List (String × Builtin) :=
  [("sin", .unary .sin), ("cos", .unary .cos),
   ("tan", .unary .tan), ("tg", .unary .tan),
   ("cot", .unary .cot), ("ctg", .unary .cot),
   ("sqrt", .root), ("√", .root),
   ("ln", .naturalLog), ("lg", .binaryLog), ("log", .log),
   ("asin", .unary .asin), ("acos", .unary .acos),
   ("atan", .unary .atan), ("acot", .unary .acot),
   ("arcsin", .unary .asin), ("arccos", .unary .acos),
   ("arctg", .unary .atan), ("arcctg", .unary .acot)]

def functionNames : List String := functions.map (·.1)

def constants : List (String × Expr) := [("e", .euler), ("pi", .pi), ("π", .pi)]

def constantNames : List String := constants.map (·.1)

def function? (name : String) : Option Builtin := functions.lookup name

def constant? (name : String) : Option Expr := constants.lookup name

def call? : Builtin → List Expr → Option Expr
  | .unary op, [x] => some (.unary op x)
  | .root, [x] => some (.binary .power x (.real 0.5))
  | .naturalLog, [x] => some (.binary .log .euler x)
  | .binaryLog, [x] => some (.binary .log (.whole 2) x)
  | .log, [x] => some (.binary .log (.whole 10) x)
  | .log, [base, x] => some (.binary .log base x)
  | _, _ => none

end Builtin

end Formula
