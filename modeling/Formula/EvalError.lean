import Formula.Signature

/-!
# Why a tree has no value
-/

namespace Formula

inductive EvalError where
  | undefinedVariable (name : Datum)
  | undefinedFunction (s : Signature)
  | tooDeep
  | overflow
  | notNumber
  | unfitName
  | comparisonOperand
  | missingOperand
  | missingTree
  /-- A body asks for an argument that is not there. -/
  | noArgument
  | missingArgument
  | noValue

namespace EvalError

def message : EvalError → String
  | .undefinedVariable name =>
    s!"Variable \"{name.words}\" was not defined in calc(). Variable names are case-sensitive"
  | .undefinedFunction s => s!"Function {s.text} has no implementation available"
  | .tooDeep =>
    "Expression tree is too deep to evaluate. " ++
      "Very long chains of operators produce deeply nested trees"
  | .overflow => "A whole number is beyond all doubles"
  | .notNumber => "A constant is no number"
  | .unfitName => "A name has parts"
  | .comparisonOperand => "Unsupported Node type: <class 'mathparser.expressions.Comparison'>"
  | .missingOperand => "Unsupported Node type: <class 'NoneType'>"
  | .missingTree => "Unsupported Expression type: <class 'NoneType'>"
  | .noArgument => "An argument is not there"
  | .missingArgument => "An argument is a missing tree"
  | .noValue => "An argument has no value"

end EvalError

end Formula
