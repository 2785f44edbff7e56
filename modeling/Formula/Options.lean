import Formula.NameSet
import Formula.StoredError

/-!
# Options of reading

How a formula is read: the declared names, two switches, and how deep its
brackets may go. Options are changed through settings, each of which is present
or not. A switch can be any datum and is on when that holds; what is declared is
checked only when a parser is made.
-/

namespace Formula

structure Options where
  /-- Whether `a - b` is read as `a + (-b)`. -/
  minusIsNegative : Datum := .scalar (.truth false)
  implicitProduct : Datum := .scalar (.truth true)
  variableNames : NameSet := .ofTexts ["x"]
  functions : FunctionTable := ∅
  maxDepth : Number := .whole 100
  maxDepth_pos : maxDepth.less? (.whole 1) = some false := by rfl

structure Settings where
  minusIsNegative : Option Datum := none
  implicitProduct : Option Datum := none
  variableNames : Option NameSet := none
  functions : Option FunctionTable := none
  maxDepth : Option Number := none

namespace Options

def isTooDeep (o : Options) (depth : Nat) : Bool := o.maxDepth.less? (.whole depth) == some true

/-- Equality of options: definitions count by their signatures, in any order. -/
def same (o p : Options) : Bool :=
  o.minusIsNegative.same p.minusIsNegative && o.implicitProduct.same p.implicitProduct &&
    o.variableNames.same p.variableNames && o.functions.same p.functions &&
    o.maxDepth.same p.maxDepth

def withSettings (o : Options) (s : Settings) : Except StoredError Options :=
  let depth := s.maxDepth.getD o.maxDepth
  match h : depth.less? (.whole 1) with
  | some false =>
    .ok {
      minusIsNegative := s.minusIsNegative.getD o.minusIsNegative
      implicitProduct := s.implicitProduct.getD o.implicitProduct
      variableNames := s.variableNames.getD o.variableNames
      functions := s.functions.getD o.functions
      maxDepth := depth
      maxDepth_pos := h }
  | some true => .error (.depthNotPositive depth)
  | none => .error .unfit

end Options

end Formula
