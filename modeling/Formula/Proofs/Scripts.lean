import Formula.Evaluation
import Formula.Proofs.Outcome

/-!
# Bodies as scripts

Whatever a body does, a script can do: it asks for the values of arguments one after another, each
in a scope of its own, and goes on with what it gets. So a property of all bodies has to be proved
of scripts only, for one question and for the answer at the end.
-/

namespace Formula

namespace Script

def andThen (next : Option Float → Script) : Except EvalError (Option Float) → Script
  | .ok x => next x
  | .error err => .answer (.error err)

def total (f : Float → Float → Float) : (count position : Nat) → (start : Float) → Script
  | 0, _, start => .answer (.ok (some start))
  | count + 1, position, start => .ask position {} <| andThen fun
    | some x => total f count (position + 1) (f start x)
    | none => .answer (.error .noValue)

end Script

/-- What the body asks, and what it does with that, for arguments that are stored so. -/
def Body.toScript (arguments : List Datum) : Body → Script
  | .sum => .total (· + ·) arguments.length 0 0.0
  | .product => .total (· * ·) arguments.length 0 1.0
  | .count => .answer (.ok (some arguments.length.toFloat))
  | .first => .ask 0 {} .answer
  | .last => .ask (arguments.length - 1) {} .answer
  | .atTen => .ask 0 { keepsValues := false, bound := [(.text "x", .whole 10)] } .answer
  | .isolated => .ask 0 { keepsFunctions := false } .answer
  | .binding => match (arguments[1]? : Option Datum) with
    | none => .answer (.error .noArgument)
    | some (.scalar .absent) => .answer (.error .missingArgument)
    | some _ => .ask 0 {} <| .andThen fun x =>
      .ask 1 { bound := [(.text "x", (x.map Number.real).getD .absent)] } .answer
  | .nothing => .answer (.ok none)
  | .constant n => .answer (some <$> n.eval)
  | .script start => start arguments

section Induction

variable {P : Script → Prop}

theorem Script.induction_andThen (hanswer : ∀ result, P (.answer result))
    {next : Option Float → Script}
    (hnext : ∀ x, P (next x)) (x : Except EvalError (Option Float)) : P (andThen next x) := by
  cases x with
  | ok x => exact hnext x
  | error => exact hanswer _

theorem Script.induction_total (hanswer : ∀ result, P (.answer result))
    (hask : ∀ position next, (∀ x, P (next x)) → P (.ask position {} (andThen next)))
    (f : Float → Float → Float) (count position : Nat) (start : Float) :
    P (total f count position start) := by
  induction count generalizing position start with
  | zero => exact hanswer _
  | succ count ih =>
    refine hask _ _ fun x => ?_
    cases x with
    | none => exact hanswer _
    | some x => exact ih _ _

/-- A body that is no script of the user's own asks one question after another, hands the errors
of its arguments on, and hides the table of functions from them only if they are to be isolated.
What holds of answers, and of such a question if it holds of all that comes after it, holds of what
the body asks. -/
theorem Body.induction_toScript {b : Body} (arguments : List Datum)
    (hscript : ∀ start, b = .script start → P (start arguments))
    (hanswer : ∀ result, P (.answer result))
    (hask : ∀ position (scope : Scope) next, (b ≠ .isolated → scope.keepsFunctions = true) →
      (∀ err, next (.error err) = .answer (.error err)) → (∀ x, P (next x)) →
      P (.ask position scope next)) : P (b.toScript arguments) := by
  have hasks (position : Nat) (next : Option Float → Script) (hnext : ∀ x, P (next x)) :
      P (.ask position {} (.andThen next)) :=
    hask _ _ _ (fun _ => rfl) (fun _ => rfl) fun x => Script.induction_andThen hanswer hnext x
  have hlast (position : Nat) (scope : Scope) (h : b ≠ .isolated → scope.keepsFunctions = true) :
      P (.ask position scope .answer) :=
    hask _ _ _ h (fun _ => rfl) hanswer
  cases b with
  | sum | product => exact Script.induction_total hanswer hasks _ _ _ _
  | count | nothing | constant => exact hanswer _
  | first | last | atTen => exact hlast _ _ fun _ => rfl
  | isolated => exact hlast _ _ fun h => absurd rfl h
  | binding =>
    simp only [toScript]
    split
    · exact hanswer _
    · exact hanswer _
    · exact hasks _ _ fun _ => hlast _ _ fun _ => rfl
  | script start => exact hscript start rfl

end Induction

namespace Expr

theorem toDatumAll_eq (es : List Expr) : toDatumAll es = es.map toDatum := by
  induction es with
  | nil => rfl
  | cons e es ih => simp [toDatumAll, ih]

end Expr

namespace Body

variable {eval : Evaluator} {vs vs' : Values} {fs fs' : FunctionTable} {es : List Expr}

theorem pick_congr {f : Expr → Expr} (hf : ∀ e, f e = .missing ↔ e = .missing) {x : Option Expr}
    (h : ∀ e ∈ x, eval vs fs (f e) = eval vs' fs' e) :
    pick eval vs fs (x.map f) = pick eval vs' fs' x := by
  cases x with
  | none => rfl
  | some e =>
    by_cases he : e = .missing
    · simp [pick, argument, he, (hf .missing).mpr rfl]
    · have hmissing : f e ≠ .missing := mt (hf e).mp he
      simpa [pick, argument, he, hmissing] using h e rfl

theorem runScript_andThen (next : Option Float → Script) (x : Except EvalError (Option Float)) :
    runScript eval vs fs es (.andThen next x) =
      x >>= fun a => runScript eval vs fs es (next a) := by
  cases x <;> rfl

theorem runScript_total (f : Float → Float → Float) (start : Float) (n position : Nat)
    (h : position + n = es.length) :
    runScript eval vs fs es (.total f n position start) =
      some <$> total f eval vs fs start (es.drop position) := by
  induction n generalizing position start with
  | zero =>
    have hdrop : es.drop position = [] := List.drop_eq_nil_of_le (by omega)
    rw [hdrop]
    rfl
  | succ n ih =>
    have hp : position < es.length := by omega
    have ih (x : Float) := ih (f start x) (position + 1) (by omega)
    rw [List.drop_eq_getElem_cons hp, Script.total, runScript, List.getElem?_eq_getElem hp,
      runScript_andThen, total, operand]
    show argument eval vs fs es[position] >>= _ = _
    cases argument eval vs fs es[position] with
    | error => rfl
    | ok x =>
      cases x with
      | none => rfl
      | some x => exact ih x

theorem run_eq_runScript (b : Body) :
    run eval vs fs es b = runScript eval vs fs es (b.toScript (Expr.toDatumAll es)) := by
  have hlength : (Expr.toDatumAll es).length = es.length := by simp [Expr.toDatumAll_eq]
  cases b with
  | sum =>
    rw [toScript, hlength, runScript_total _ _ _ _ (Nat.zero_add _)]
    rfl
  | product =>
    rw [toScript, hlength, runScript_total _ _ _ _ (Nat.zero_add _)]
    rfl
  | count => simp [run, toScript, hlength, runScript]
  | first =>
    rw [run, List.head?_eq_getElem?]
    rfl
  | last =>
    rw [run, List.getLast?_eq_getElem?, toScript, hlength]
    rfl
  | atTen =>
    rw [run, List.head?_eq_getElem?]
    rfl
  | isolated =>
    rw [run, List.head?_eq_getElem?]
    rfl
  | binding =>
    have hmap : (Expr.toDatumAll es)[1]? = es[1]?.map Expr.toDatum := by
      rw [Expr.toDatumAll_eq, List.getElem?_map]
    rw [run, List.head?_eq_getElem?, toScript, hmap]
    cases hsecond : es[1]? with
    | none => rfl
    | some e =>
      cases e with
      | missing => rfl
      | _ =>
        show pick eval vs fs es[0]? >>= _ =
          runScript eval vs fs es (.andThen _ (pick eval vs fs es[0]?))
        rw [runScript_andThen]
        refine bind_congr fun x => ?_
        rw [runScript, hsecond]
        rfl
  | nothing | constant | script => rfl

end Body

end Formula
