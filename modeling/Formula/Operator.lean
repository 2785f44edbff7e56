/-!
# Operators of formulas

Each operator has the symbol under which it is stored and the label under which
a report shows it, and says what it does to doubles.
-/

namespace Formula

inductive UnaryOp where
  | negate | sin | cos | tan | cot | asin | acos | atan | acot
  | exp
  deriving DecidableEq

/-- For `log` the left operand is the base. -/
inductive BinaryOp where
  | add | subtract | multiply | divide | power | log
  deriving DecidableEq

inductive Relation where
  | equals | greater | less | greaterEqual | lessEqual
  deriving DecidableEq

namespace UnaryOp

def all : List UnaryOp := [.negate, .sin, .cos, .tan, .cot, .asin, .acos, .atan, .acot, .exp]

def symbol : UnaryOp → String
  | .negate => "neg"
  | .sin => "sin"
  | .cos => "cos"
  | .tan => "tan"
  | .cot => "cot"
  | .asin => "asin"
  | .acos => "acos"
  | .atan => "atan"
  | .acot => "acot"
  | .exp => "exp"

def label : UnaryOp → String
  | .negate => "NEGATE"
  | .sin => "SIN"
  | .cos => "COS"
  | .tan => "TAN"
  | .cot => "COT"
  | .asin => "ASIN"
  | .acos => "ACOS"
  | .atan => "ATAN"
  | .acot => "ACOT"
  | .exp => "EXP"

def ofSymbol? (s : String) : Option UnaryOp := all.find? (·.symbol == s)

theorem ofSymbol?_symbol (op : UnaryOp) : ofSymbol? op.symbol = some op := by
  cases op <;> decide +kernel

def apply : UnaryOp → Float → Float
  | .negate, x => -x
  | .sin, x => x.sin
  | .cos, x => x.cos
  | .tan, x => x.tan
  | .cot, x => 1.0 / x.tan
  | .asin, x => x.asin
  | .acos, x => x.acos
  | .atan, x => x.atan
  | .acot, x => (1.0 / x).atan
  | .exp, x => x.exp

end UnaryOp

namespace BinaryOp

def all : List BinaryOp := [.add, .subtract, .multiply, .divide, .power, .log]

def symbol : BinaryOp → String
  | .add => "+"
  | .subtract => "-"
  | .multiply => "*"
  | .divide => "/"
  | .power => "^"
  | .log => "log"

def label : BinaryOp → String
  | .add => "ADD"
  | .subtract => "SUBTRACT"
  | .multiply => "MULTIPLY"
  | .divide => "DIVIDE"
  | .power => "POWER"
  | .log => "LOG"

def ofSymbol? (s : String) : Option BinaryOp := all.find? (·.symbol == s)

theorem ofSymbol?_symbol (op : BinaryOp) : ofSymbol? op.symbol = some op := by
  cases op <;> decide +kernel

def apply : BinaryOp → Float → Float → Float
  | .add, x, y => x + y
  | .subtract, x, y => x - y
  | .multiply, x, y => x * y
  | .divide, x, y => x / y
  | .power, x, y => x.pow y
  | .log, base, x => x.log / base.log

end BinaryOp

namespace Relation

def all : List Relation := [.equals, .greater, .less, .greaterEqual, .lessEqual]

def symbol : Relation → String
  | .equals => "="
  | .greater => ">"
  | .less => "<"
  | .greaterEqual => ">="
  | .lessEqual => "<="

def label : Relation → String
  | .equals => "EQUALS"
  | .greater => "GREATER"
  | .less => "LESS"
  | .greaterEqual => "GREATER_EQUAL"
  | .lessEqual => "LESS_EQUAL"

def ofSymbol? (s : String) : Option Relation := all.find? (·.symbol == s)

theorem ofSymbol?_symbol (r : Relation) : ofSymbol? r.symbol = some r := by
  cases r <;> decide +kernel

def holds : Relation → Float → Float → Bool
  | .equals, x, y => x == y
  | .greater, x, y => x > y
  | .less, x, y => x < y
  | .greaterEqual, x, y => x ≥ y
  | .lessEqual, x, y => x ≤ y

end Relation

end Formula
