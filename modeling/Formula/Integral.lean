import Formula.Evaluation
import Formula.Quadrature

/-!
# Integrals of trees

A tree is integrated over one variable by sampling its value; a sample without a
value counts as not-a-number. The number of intervals must be a positive whole
number, for which true counts as one.
-/

namespace Formula

instance natCastFloat : NatCast Float := ⟨Float.ofNat⟩

inductive IntegralError where
  | precision (n : Number)
  | limit
  | eval (e : EvalError)

namespace IntegralError

def message : IntegralError → String
  | .precision n => s!"Precision must be a positive integer, got {n.text}"
  | .limit => "A limit is no number"
  | .eval e => e.message

end IntegralError

def Number.intervals (n : Number) : Except IntegralError Nat :=
  match n.whole? with
  | some i => if 0 < i then .ok i.toNat else .error (.precision n)
  | none => .error (.precision n)

def fitting {α : Type} (x? : Option α) : Except IntegralError α :=
  match x? with
  | some x => .ok x
  | none => .error (.eval .overflow)

/-- The way from the lower limit to the upper one, exact between whole limits. -/
def spanBetween (lower upper : Number) : Except IntegralError Number :=
  match lower, upper with
  | .absent, _ | _, .absent => .error .limit
  | _, _ => fitting (upper.minus? lower)

/-- The way that the points of a rule cut. Limits of a fixed format become doubles
before a grid is laid between them; the middles of intervals are exact. -/
def Quadrature.Rule.spanOfPoints (rule : Quadrature.Rule) (lower upper span : Number) : Number :=
  match rule, lower.toFloat?, upper.toFloat? with
  | .middle, _, _ => span
  | _, some a, some b => if lower.isFixed && upper.isFixed then .real (b - a) else span
  | _, _, _ => span

namespace Expr

/-- The value at a point, where only the given variable has a value. -/
def sample (e : Expr) (name : Datum) (fs : FunctionTable) (x : Float) :
    Except IntegralError Float := do
  if !name.isAtom then throw (.eval .unfitName)
  let y ← (e.value ⟨[(name, .real x)]⟩ fs).mapError .eval
  return y.getD (0.0 / 0.0)

/-- The integral from `lower` to `upper`. A number beyond all doubles counts only
where it is needed: the upper limit at the last point, the span after all samples. -/
def integral (rule : Quadrature.Rule) (e : Expr) (name : Datum) (fs : FunctionTable)
    (n lower upper : Number) : Except IntegralError Float := do
  let n ← n.intervals
  let span ← spanBetween lower upper
  let cut := rule.spanOfPoints lower upper span
  let step ← fitting (cut.part? n)
  let a ← fitting lower.toFloat?
  let inner ← (rule.inner n a (cut.toFloat?.getD 0.0) step).mapM (e.sample name fs)
  let last ← if rule.usesEnd then [upper].mapM fun b => do
      e.sample name fs (← fitting b.toFloat?)
    else .ok []
  let scale ← fitting (if rule.usesSpan then span.toFloat? else span.part? n)
  return rule.combine n scale (inner ++ last)

end Expr

end Formula
