import Formula.Proofs.Inventory
import Formula.Proofs.Levels

/-!
# Missing values

A tree without calls has a value if all of its variables have one. Otherwise it stops at the first
of its variables, from left to right, that has none; nothing else stops it, and the truth of a
comparison stops just where its value does.
-/

namespace Formula

variable {missing missing' : Option Datum}

/-- The outcome is the error that the name has no value, if a name is missing, and a value if none
is. -/
def Notices (missing : Option Datum) (x : Except EvalError α) : Prop :=
  match missing with
  | some name => x = .error (.undefinedVariable name)
  | none => ∃ a, x = .ok a

namespace Notices

theorem pure (a : α) : Notices none (Pure.pure a : Except EvalError α) := ⟨a, rfl⟩

theorem bind {x : Except EvalError α} {f : α → Except EvalError β} (hx : Notices missing x)
    (hf : ∀ a, Notices missing' (f a)) : Notices (missing.or missing') (x >>= f) := by
  cases missing with
  | some name =>
    obtain rfl := hx
    rfl
  | none =>
    obtain ⟨a, rfl⟩ := hx
    exact hf a

theorem map {x : Except EvalError α} (hx : Notices missing x) (f : α → β) :
    Notices missing (f <$> x) := by
  simpa using hx.bind fun a => pure (f a)

theorem eq_error_iff {x : Except EvalError α} (hx : Notices missing x) :
    x = .error err ↔ ∃ name, missing = some name ∧ err = .undefinedVariable name := by
  cases missing with
  | some name =>
    obtain rfl := hx
    simp [eq_comm]
  | none =>
    obtain ⟨a, rfl⟩ := hx
    simp

end Notices

def Values.Convertible (vs : Values) : Prop :=
  ∀ name n, vs.get? name = some n → ∃ x, n.eval = .ok x

namespace Expr

/-- The tree can be evaluated as far as it is concerned itself, and calls nothing: a constant has a
double, a name can be looked up, and operands of operators are numeric. -/
def IsPlain : Expr → Prop
  | .const d => ∃ x, d.eval = .ok x
  | .var name => name.isAtom = true
  | .unary _ e => e.isNumeric = true
  | .binary _ l r => l.isNumeric = true ∧ r.isNumeric = true
  | .compare .. => True
  | .call .. | .missing => False

def firstMissing? (vs : Values) (e : Expr) : Option Datum :=
  e.variableNames.find? fun name => (vs.get? name).isNone

variable {e l r : Expr} {vs : Values} {fs : FunctionTable} {room : Nat}

theorem firstMissing?_both (h : e.variableNames = l.variableNames ++ r.variableNames) :
    e.firstMissing? vs = (l.firstMissing? vs).or (r.firstMissing? vs) := by
  rw [firstMissing?, h, List.find?_append]
  rfl

theorem firstMissing?_eq_none :
    e.firstMissing? vs = none ↔ ∀ name ∈ e.variableNames, vs.get? name ≠ none := by
  simp [firstMissing?]

theorem number_var (hvs : vs.Convertible) {name : Datum} (hname : name.isAtom = true) :
    Notices ((var name).firstMissing? vs) (number (room + 1) vs fs (.var name)) := by
  rw [firstMissing?, variableNames, List.find?_singleton, number, Values.value, Values.lookup,
    if_pos hname, ok_bind]
  cases hget : vs.get? name with
  | none => rfl
  | some n => exact hvs name n hget

theorem number_notices (hvs : vs.Convertible) (he : e.Everywhere IsPlain)
    (hnumeric : e.isNumeric = true) (hroom : e.height ≤ room) :
    Notices (e.firstMissing? vs) (e.number room vs fs) := by
  induction room generalizing e with
  | zero => exact absurd e.height_pos (Nat.not_lt.mpr hroom)
  | succ room ih =>
    cases e with
    | missing | compare => cases hnumeric
    | call => exact he.1.elim
    | const d => exact he
    | var name => exact number_var hvs he
    | unary op e => exact (ih he.2 he.1 (Nat.le_of_succ_le_succ hroom)).map op.apply
    | binary op l r =>
      obtain ⟨⟨hl, hr⟩, hleft, hright⟩ := he
      obtain ⟨hlevels, hlevels'⟩ := Nat.max_le.mp (Nat.le_of_succ_le_succ hroom)
      rw [firstMissing?_both rfl]
      exact (ih hleft hl hlevels).bind fun x => (ih hright hr hlevels').map (op.apply x)

theorem outcome_notices (hvs : vs.Convertible) (he : e.Everywhere IsPlain)
    (hroom : e.evalDepth ≤ room) : Notices (e.firstMissing? vs) (e.outcome room vs fs) := by
  fun_induction evalDepth e generalizing room with
  | case1 rel a b iha ihb =>
    obtain ⟨-, ha, hb⟩ := he
    obtain ⟨below, rfl, hlevels, hlevels'⟩ := exists_below_compare rel hroom
    rw [firstMissing?_both rfl]
    exact (iha ha hlevels).bind fun x => (ihb hb hlevels').map (rel.value x)
  | case2 e hcompare =>
    obtain ⟨room, rfl⟩ := Nat.exists_eq_add_one_of_ne_zero (Nat.ne_zero_of_lt hroom)
    have hheight := Nat.le_of_succ_le_succ hroom
    cases e with
    | missing => exact he.elim
    | compare rel a b => exact absurd rfl (hcompare rel a b)
    | _ => exact (number_notices hvs he rfl hheight).map some

theorem truthWithin_notices (hvs : vs.Convertible) (he : e.Everywhere IsPlain)
    (hroom : e.evalDepth ≤ room) : Notices (e.firstMissing? vs) (e.truthWithin room vs fs) := by
  cases e with
  | compare rel a b =>
    obtain ⟨-, ha, hb⟩ := he
    obtain ⟨below, rfl, hlevels, hlevels'⟩ := exists_below_compare rel hroom
    rw [firstMissing?_both rfl]
    exact (outcome_notices hvs ha (Nat.le_succ_of_le hlevels)).bind fun x =>
      (outcome_notices hvs hb (Nat.le_succ_of_le hlevels')).map (rel.truth x)
  | _ => exact outcome_notices hvs he hroom

theorem exists_usedVariables (he : e.Everywhere IsPlain) (hroom : e.height ≤ room) :
    ∃ names, e.usedVariablesWithin room = .ok names := by
  have hfits : e.Everywhere fun e => fitsVariables e = true ∧ e ≠ .missing := by
    refine Everywhere.mono (fun e he => ?_) e he
    cases e with
    | var name => exact ⟨he, nofun⟩
    | call | missing => exact he.elim
    | _ => exact ⟨rfl, nofun⟩
  have hatoms : ∀ name ∈ e.variableNames, name.isAtom = true :=
    forall_variableNames (fun name h => h) e he
  exact ⟨_, usedVariablesWithin_eq_ok.mpr
    ⟨walk_eq_ok hfits hroom, if_pos (List.all_eq_true.mpr hatoms)⟩⟩

end Expr

/-- A tree without calls that is well formed and has levels enough stops just when one of its used
variables has no value, and then at the first variable without one. Its truth stops just when its
value does, and a numeric tree that does not stop has a double. So it is with any number of levels,
that of `Expr.usedVariables`, `Expr.value` and `Expr.truth` among them. -/
theorem missing_value_is_noticed {e : Expr} {vs : Values} (fs : FunctionTable)
    (he : e.Everywhere Expr.IsPlain) (hvs : vs.Convertible) {room : Nat}
    (hroom : e.evalDepth ≤ room) :
    (e.usedVariables = e.usedVariablesWithin Expr.levels ∧
      e.value vs fs = e.outcome Expr.levels vs fs ∧
      e.truth vs fs = e.truthWithin Expr.levels vs fs) ∧
    ∃ names, e.usedVariablesWithin room = .ok names ∧
      ((∃ err, e.outcome room vs fs = .error err) ↔
        ∃ name ∈ names.data, vs.get? name = none) ∧
      (∀ err, e.outcome room vs fs = .error err ↔
        ∃ name, e.firstMissing? vs = some name ∧ err = .undefinedVariable name) ∧
      (∀ err, e.truthWithin room vs fs = .error err ↔ e.outcome room vs fs = .error err) ∧
      (e.isNumeric = true → (∀ name ∈ names.data, vs.get? name ≠ none) →
        ∃ x, e.outcome room vs fs = .ok (some x)) := by
  have hheight : e.height ≤ room := (e.height_lt_evalDepth.trans_le hroom).le
  obtain ⟨names, hnames⟩ := e.exists_usedVariables he hheight
  have hvalue : Notices (e.firstMissing? vs) (e.outcome room vs fs) :=
    Expr.outcome_notices hvs he hroom
  have htruth : Notices (e.firstMissing? vs) (e.truthWithin room vs fs) :=
    Expr.truthWithin_notices hvs he hroom
  have hused : (∀ name ∈ names.data, vs.get? name ≠ none) ↔ e.firstMissing? vs = none := by
    rw [Expr.forall_usedVariables hnames fun d d' hd hsame h =>
      Values.get?_eq_of_same hd hsame vs ▸ h, Expr.firstMissing?_eq_none]
  refine ⟨⟨rfl, rfl, rfl⟩, names, hnames, ?_, fun err => hvalue.eq_error_iff, fun err => ?_,
    fun hnumeric hall => ?_⟩
  · constructor
    · rintro ⟨err, herr⟩
      obtain ⟨name, hname, -⟩ := hvalue.eq_error_iff.mp herr
      by_contra! hall
      rw [hused.mp hall] at hname
      cases hname
    · rintro ⟨name, hname, hnone⟩
      cases hfirst : e.firstMissing? vs with
      | none => exact absurd hnone (hused.mpr hfirst name hname)
      | some first => exact ⟨_, hvalue.eq_error_iff.mpr ⟨first, hfirst, rfl⟩⟩
  · simp only [hvalue.eq_error_iff, htruth.eq_error_iff]
  · rw [hused.mp hall] at hvalue
    obtain ⟨a, ha⟩ := hvalue
    obtain ⟨x, rfl⟩ := Expr.exists_of_isNumeric hnumeric ha
    exact ⟨x, ha⟩

/-- The left side has no value. The right side is evaluated all the same, and lacks two of three
values. -/
theorem missing_value_is_noticed_right :
    let e : Expr := .compare .less (.compare .equals (Expr.whole 1) (.named "x"))
      (.binary .add (.binary .power (.named "x") (.unary .sin (.named "z"))) (.named "y"))
    let vs : Values := .x (.whole 3)
    e.Everywhere Expr.IsPlain ∧ vs.Convertible ∧ e.evalDepth ≤ Expr.levels ∧
      e.value vs ∅ = .error (.undefinedVariable (.text "z")) ∧
      e.truth vs ∅ = .error (.undefinedVariable (.text "z")) := by
  intro e vs
  have hwhole (n : Int) (h : (Number.wholeToFloat? n).isSome = true) :
      ∃ x, (Number.whole n).eval = .ok x := by
    obtain ⟨x, hx⟩ := Option.isSome_iff_exists.mp h
    exact ⟨x, by rw [Number.eval, Number.toFloat?, hx]⟩
  have hone : ∃ x, (Number.whole 1).eval = .ok x := hwhole 1 (by decide +kernel)
  have hplain : e.Everywhere Expr.IsPlain :=
    ⟨trivial, ⟨trivial, hone, rfl⟩, ⟨rfl, rfl⟩, ⟨⟨rfl, rfl⟩, rfl, rfl, rfl⟩, rfl⟩
  have hvalues : vs.Convertible := by
    rintro name n hn
    simp only [vs, Values.x, Values.get?, Values.find?] at hn
    split at hn
    · cases hn
      exact hwhole 3 (by decide +kernel)
    · cases hn
  have hdepth : e.evalDepth ≤ Expr.levels := by decide
  obtain ⟨⟨-, hvalue, htruth⟩, -, -, -, hstops, hsame, -⟩ :=
    missing_value_is_noticed ∅ hplain hvalues hdepth
  have hz := (hstops _).mpr ⟨.text "z", rfl, rfl⟩
  exact ⟨hplain, hvalues, hdepth, hvalue.trans hz, htruth.trans ((hsame _).mpr hz)⟩

end Formula
