import Formula.Function
import Formula.Proofs.Everywhere
import Formula.Proofs.ExactValues

/-!
# Bodies found in a table

A table keeps the first definition of every signature, and a call can use the body of that one
only. So a body that is supplied is found, unless a declaration without one comes first.
-/

namespace Formula

variable {ds : List Definition} {s : Signature}

-- ---------------------------------------------------------------------------
-- First definitions
-- ---------------------------------------------------------------------------

theorem Signature.isAtomic_eq_of_same {s t : Signature} (h : s.same t = true) :
    s.isAtomic = t.isAtomic := by
  simp only [same, Bool.and_eq_true] at h
  simp only [isAtomic, Datum.isAtom_eq_of_same h.1.1, Datum.isAtom_eq_of_same h.1.2,
    Datum.isAtom_eq_of_same h.2]

theorem find?_keepFirst (hatomic : ∀ d ∈ ds, d.signature.isAtomic = true) (s : Signature) :
    (keepFirst ds).find? (·.signature.same s) = ds.find? (·.signature.same s) := by
  induction ds with
  | nil => rfl
  | cons d rest ih =>
    rw [List.forall_mem_cons] at hatomic
    rw [keepFirst]
    cases hd : d.signature.same s with
    | true => simp only [List.find?_cons, hd]
    | false =>
      -- What is left out for the sake of `d` has its signature, which is not `s`.
      have hkept : ∀ e : Definition, e.signature.same s = true →
          d.signature.same e.signature = false := by
        intro e he
        by_contra hde
        rw [Bool.not_eq_false] at hde
        have hatom : e.signature.isAtomic = true := Signature.isAtomic_eq_of_same hde ▸ hatomic.1
        rw [Signature.same_eq_of_same hatom he, hd] at hde
        cases hde
      simp only [List.find?_cons, hd, List.find?_filter]
      rw [← ih hatomic.2]
      congr 1
      funext e
      by_cases he : e.signature.same s = true
      · simp [he, hkept e he]
      · simp [he]

theorem FunctionTable.implementation?_eq {t : FunctionTable}
    (hatomic : ∀ d ∈ t.definitions, d.signature.isAtomic = true) (s : Signature) :
    t.implementation? s = (t.definitions.find? (·.signature.same s)).filter (·.isImplemented) := by
  obtain ⟨ds, hdistinct⟩ := t
  show ds.find? _ = (ds.find? _).filter _
  induction ds with
  | nil => rfl
  | cons d rest ih =>
    obtain ⟨hd, hrest⟩ := List.pairwise_cons.mp hdistinct
    rw [List.forall_mem_cons] at hatomic
    cases hs : d.signature.same s with
    | false =>
      simp only [List.find?_cons, hs, Bool.and_false]
      exact ih hrest hatomic.2
    | true =>
      have hnone : ∀ e ∈ rest, e.signature.same s = false := by
        intro e he
        by_contra hes
        rw [Bool.not_eq_false] at hes
        have hne := hd e he
        rw [Signature.same_eq_of_same (hatomic.2 e he) hes, hs] at hne
        cases hne
      cases hbody : d.isImplemented with
      | true => simp [Option.filter, hs, hbody]
      | false => simpa [Option.filter, hs, hbody] using fun e he _ => hnone e he

-- ---------------------------------------------------------------------------
-- Bodies that are supplied
-- ---------------------------------------------------------------------------

def Definition.Implements (d : Definition) (s : Signature) : Prop :=
  d.isImplemented = true ∧ d.signature.same s = true

/-- The first definition of the signature is a declaration without a body. -/
def DeclaredFirst (ds : List Definition) (s : Signature) : Prop :=
  ∃ before bare after, ds = before ++ bare :: after ∧ bare.signature.same s = true ∧
    bare.isImplemented = false ∧ ∀ d ∈ before, d.signature.same s = false

theorem declaredFirst_iff : DeclaredFirst ds s ↔
    ∃ bare, ds.find? (·.signature.same s) = some bare ∧ bare.isImplemented = false := by
  simp only [DeclaredFirst, List.find?_eq_some_iff_append]
  constructor
  · rintro ⟨before, bare, after, rfl, hs, hbody, hbefore⟩
    exact ⟨bare, ⟨hs, before, after, rfl, by simpa using hbefore⟩, hbody⟩
  · rintro ⟨bare, ⟨hs, before, after, rfl, hbefore⟩, hbody⟩
    exact ⟨before, bare, after, rfl, hs, hbody, by simpa using hbefore⟩

/-- What is found in a table implements the signature that was looked up. Where no declaration
without a body comes first, an implementation is found if there is one, and the look-up fails only
if there is none; where one does, nothing is found, whatever follows. -/
theorem supplied_body_is_found (hatomic : ∀ d ∈ ds, d.signature.isAtomic = true) (s : Signature) :
    let found := (FunctionTable.ofList ds).implementation? s
    (∀ d, found = some d → d ∈ ds ∧ d.Implements s) ∧
      (¬ DeclaredFirst ds s →
        ((∃ d ∈ ds, d.Implements s) → ∃ d, found = some d ∧ d.Implements s) ∧
          (found = none ↔ ∀ d ∈ ds, ¬ d.Implements s)) ∧
      (DeclaredFirst ds s → found = none) := by
  have hfound : (FunctionTable.ofList ds).implementation? s =
      (ds.find? (·.signature.same s)).filter (·.isImplemented) := by
    rw [← find?_keepFirst hatomic]
    exact FunctionTable.implementation?_eq (fun d hd => hatomic d (mem_keepFirst hd)) s
  simp only [declaredFirst_iff, hfound]
  cases hfirst : ds.find? (·.signature.same s) with
  | none =>
    have hnone : ∀ d ∈ ds, ¬ d.Implements s := fun d hd h =>
      List.find?_eq_none.mp hfirst d hd h.2
    exact ⟨nofun, fun _ => ⟨fun ⟨d, hd, h⟩ => absurd h (hnone d hd), by simpa using hnone⟩, nofun⟩
  | some first =>
    have hmem := List.mem_of_find?_eq_some hfirst
    have hsame : first.signature.same s = true := (List.find?_eq_some_iff_append.mp hfirst).1
    cases hbody : first.isImplemented with
    | true =>
      have himplements : first.Implements s := ⟨hbody, hsame⟩
      rw [Option.filter_some, if_pos hbody]
      refine ⟨?_, fun _ => ⟨fun _ => ⟨first, rfl, himplements⟩, nofun, ?_⟩, ?_⟩
      · rintro d ⟨⟩
        exact ⟨hmem, himplements⟩
      · exact fun h => absurd himplements (h first hmem)
      · rintro ⟨bare, ⟨⟩, hbare⟩
        rw [hbody] at hbare
        cases hbare
    | false =>
      have hbare : first.isImplemented ≠ true := by simp [hbody]
      rw [Option.filter_some, if_neg hbare]
      exact ⟨nofun, fun h => absurd ⟨first, rfl, hbody⟩ h, fun _ => rfl⟩

/-- A body for `f` is supplied, but `f` is declared before it. For `g` the body comes first. -/
theorem supplied_body_is_found_before_declaration :
    let f : Signature := .of "f" 1 1
    let g : Signature := .of "g" 0 2
    let ds : List Definition := [⟨f, none⟩, ⟨g, some .sum⟩, ⟨f, some .first⟩, ⟨g, none⟩]
    (∀ d ∈ ds, d.signature.isAtomic = true) ∧
      (∃ d ∈ ds, d.Implements f) ∧ (FunctionTable.ofList ds).implementation? f = none ∧
      ∃ d, (FunctionTable.ofList ds).implementation? g = some d ∧ d.Implements g := by
  intro f g ds
  have hatomic : ∀ d ∈ ds, d.signature.isAtomic = true := by simp [ds]; decide
  have hf : DeclaredFirst ds f := ⟨[], _, _, rfl, by decide, rfl, nofun⟩
  have hg : ¬ DeclaredFirst ds g := by
    rintro h
    obtain ⟨bare, hfirst, hbare⟩ := declaredFirst_iff.mp h
    cases hfirst
    cases hbare
  have hsum : (⟨g, some .sum⟩ : Definition).Implements g := ⟨rfl, by decide⟩
  exact ⟨hatomic, ⟨⟨f, some .first⟩, by simp [ds], rfl, by decide⟩,
    (supplied_body_is_found hatomic f).2.2 hf,
    ((supplied_body_is_found hatomic g).2.1 hg).1 ⟨_, by simp [ds], hsum⟩⟩

end Formula
