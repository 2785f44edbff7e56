import Formula.Function

/-!
# Why stored data is refused
-/

namespace Formula

inductive StoredError where
  | notRecord
  | missingField (name : String)
  | unfit
  | unknownKind (kind : Datum)
  | notUnary (symbol : Datum)
  | notBinary (symbol : Datum)
  | notRelation (symbol : Datum)
  | argumentCount (callee : Signature)
  | depthNotPositive (depth : Number)

def StoredError.message : StoredError → String
  | .notRecord => "A record is needed"
  | .missingField name => Text.quoted name
  | .unfit => "A datum is of an unfit kind"
  | .unknownKind kind => s!"Unsupported expression dict type: {kind.words}"
  | .notUnary symbol => s!"{symbol.report} is not a valid UnaryOperator"
  | .notBinary symbol => s!"{symbol.report} is not a valid BinaryOperator"
  | .notRelation symbol => s!"{symbol.report} is not a valid ComparisonOperator"
  | .argumentCount s => s!"\"{s.text}\" received an unsupported number of arguments"
  | .depthNotPositive depth => s!"max_depth must be positive, got {depth.text}"

end Formula
