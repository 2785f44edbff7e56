import Formula.Expr
import Formula.Text.Quoted

/-!
# Trees and tables in reports

A report shows a tree as nested constructor terms that name every field, and a
table of functions by its signatures.
-/

namespace Formula

open Text (quoted)

def Signature.report (s : Signature) : String :=
  s!"FunctionDefinition(name={s.name.report}, min_args={s.least.report}, max_args={s.most.report})"

def FunctionTable.report (t : FunctionTable) : String :=
  "CustomFunctions([" ++ ", ".intercalate (t.signatures.map Signature.report) ++ "])"

/-- Items between parentheses; a single item keeps a comma. -/
def reportTuple : List String → String
  | [] => "()"
  | [item] => s!"({item},)"
  | items => "(" ++ ", ".intercalate items ++ ")"

namespace Expr

mutual
def report : Expr → String
  | .missing => "None"
  | .const d => s!"Constant(value={d.report})"
  | .var x => s!"Variable(name={x.report})"
  | .unary op e =>
    s!"UnaryExpression(operator=<UnaryOperator.{op.label}: {quoted op.symbol}>, " ++
      s!"operand={e.report})"
  | .binary op l r =>
    s!"BinaryExpression(operator=<BinaryOperator.{op.label}: {quoted op.symbol}>, " ++
      s!"left={l.report}, right={r.report})"
  | .call d es =>
    s!"FreeformCall(definition={d.signature.report}, arguments={reportTuple (reportAll es)})"
  | .compare r a b =>
    s!"Comparison(operator=<ComparisonOperator.{r.label}: {quoted r.symbol}>, " ++
      s!"left={a.report}, right={b.report})"
def reportAll : List Expr → List String
  | [] => []
  | e :: es => e.report :: reportAll es
end

end Expr

end Formula
