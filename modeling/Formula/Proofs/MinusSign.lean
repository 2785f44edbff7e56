import Formula.Proofs.Doubles
import Formula.Proofs.Levels
import Formula.Proofs.RoundTrip
import Formula.Proofs.Subtraction

/-!
# What the switch for minus signs changes

With the switch on a formula is read as it is without, but for its subtractions, which become
sums with a negation. Its value is the same as long as the tree is not too tall, and a
subtraction that is written as a sum makes it taller.
-/

namespace Formula

-- ---------------------------------------------------------------------------
-- Values without subtractions
-- ---------------------------------------------------------------------------

namespace Expr

variable {e : Expr} {vs : Values} {fs : FunctionTable}

end Expr

-- ---------------------------------------------------------------------------
-- Tall formulas
-- ---------------------------------------------------------------------------

def Source.differences (name : String) : Nat → Source
  | 0 => .named name
  | n + 1 => .binary .minus .round (.named name) .round (differences name n)

def Expr.times (name : String) : Nat → Expr → Expr
  | 0, e => e
  | m + 1, e => .binary .multiply (times name m e) (.named name)

section Tall

variable {o : Options} {name : String}

end Tall

/-- So many differences in brackets, and after them a character that means nothing. -/
def stray (n : Nat) : String := .ofList ('(' :: ((Source.differences "x" n).text ++ ")$".toList))

section Heights

variable {o : Options} (hoff : o.minusIsNegative.holds = false)

include hoff

end Heights

-- ---------------------------------------------------------------------------
-- Values of tall formulas
-- ---------------------------------------------------------------------------

section

variable {e : Expr} {fs : FunctionTable}

end

-- ---------------------------------------------------------------------------
-- The switch
-- ---------------------------------------------------------------------------

end Formula
