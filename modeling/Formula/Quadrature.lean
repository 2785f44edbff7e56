/-!
# Quadrature rules

Definite integrals from samples at evenly spaced points. The rules are written
for any arithmetic, so that they can be used with doubles and reasoned about
with exact fractions.
-/

namespace Formula.Quadrature

inductive Rule where
  | left
  | right
  | middle
  | trapezoids
  /-- Samples weighted one, four, two, four, … and one. -/
  | simpson
  deriving DecidableEq

variable {α : Type} [Add α] [Sub α] [Mul α] [Div α] [NatCast α] [BEq α]

/-- Where `n` intervals of a width `step` start, the first of them at `a`, when they
cut a `span`. A step that vanishes in rounding is not divided first. -/
def starts (n : Nat) (a span step : α) : List α :=
  (List.range n).map fun (i : Nat) =>
    if step == ((0 : Nat) : α) then (i : α) / (n : α) * span + a else (i : α) * step + a

def middles (n : Nat) (a step : α) : List α :=
  (List.range n).map fun (i : Nat) => a + step / ((2 : Nat) : α) + step * (i : α)

def total (ys : List α) : α := ys.foldl (· + ·) ((0 : Nat) : α)

def alternating : Bool → List α → List α
  | _, [] => []
  | true, y :: ys => ((4 : Nat) : α) * y :: alternating false ys
  | false, y :: ys => ((2 : Nat) : α) * y :: alternating true ys

def Rule.inner (n : Nat) (a span step : α) : Rule → List α
  | .right => (starts n a span step).tail
  | .middle => middles n a step
  | .left | .trapezoids | .simpson => starts n a span step

def Rule.usesEnd : Rule → Bool
  | .left | .middle => false
  | .right | .trapezoids | .simpson => true

/-- Whether a rule scales its sum by the whole span, and not by the width of one
interval. -/
def Rule.usesSpan : Rule → Bool
  | .left | .right | .middle => false
  | .trapezoids | .simpson => true

/-- The integral over `n` intervals from the samples at the points of a rule, scaled
by the span or by the width of an interval. -/
def Rule.combine (n : Nat) (scale : α) (ys : List α) : Rule → α
  | .left | .right | .middle => scale * total ys
  | .trapezoids =>
    let zero := ((0 : Nat) : α)
    let ends := ys.headD zero + ys.getLastD zero
    (ends / ((2 : Nat) : α) + total ys.tail.dropLast) * scale / (n : α)
  | .simpson =>
    let zero := ((0 : Nat) : α)
    let ends := ys.headD zero + ys.getLastD zero
    (ends + total (alternating true ys.tail.dropLast)) * scale / (n : α) / ((3 : Nat) : α)

def Rule.apply (rule : Rule) (f : α → α) (n : Nat) (a b : α) : α :=
  let span := b - a
  let step := span / (n : α)
  let points := rule.inner n a span step ++ if rule.usesEnd then [b] else []
  rule.combine n (if rule.usesSpan then span else step) (points.map f)

end Formula.Quadrature
