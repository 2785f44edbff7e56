import Formula.Expr.Report

/-!
# Parts of a formula being read

Between tokens and a tree a formula is a list of parts: words and operators that
still wait, trees, and lists of arguments in brackets.
-/

namespace Formula

inductive Part where
  /-- A word, operator or fragment that nothing has used yet. -/
  | pending (text : String)
  /-- A pair of brackets with no argument or several. -/
  | arguments (trees : List Expr)
  | tree (e : Expr)

namespace Part

def operand? : Part → Option Expr
  | .tree e => if e.isNumeric then some e else none
  | .pending _ | .arguments _ => none

def isOperand (p : Part) : Bool := p.operand?.isSome

def arguments? : Part → Option (List Expr)
  | .arguments es => some es
  | p => p.operand?.map ([·])

def isEmptyList : Part → Bool
  | .arguments es => es.isEmpty
  | .pending _ | .tree _ => false

def trees : Part → List Expr
  | .pending _ => []
  | .arguments es => es
  | .tree e => [e]

def report : Part → String
  | .pending text => s!"Pending(text={Text.quoted text})"
  | .arguments es => s!"ArgumentList(nodes={reportTuple (Expr.reportAll es)})"
  | .tree e => e.report

end Part

end Formula
