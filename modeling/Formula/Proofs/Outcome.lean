import Mathlib.Data.List.Forall2

/-!
# Outcomes of steps that may fail

When a step that is made of others succeeds, and with what; and what two such steps
have in common that are made of steps alike.
-/

namespace Formula

theorem bind_eq_ok {x : Except ε α} {f : α → Except ε β} :
    x >>= f = .ok b ↔ ∃ a, x = .ok a ∧ f a = .ok b := by
  cases x with
  | error e => exact ⟨fun h => (nomatch h), fun ⟨_, h, _⟩ => (nomatch h)⟩
  | ok a => exact ⟨fun h => ⟨a, rfl, h⟩, fun ⟨_, ha, h⟩ => by cases ha; exact h⟩

theorem bind_eq_error {x : Except ε α} {f : α → Except ε β} :
    x >>= f = .error e ↔ x = .error e ∨ ∃ a, x = .ok a ∧ f a = .error e := by
  cases x with
  | error e => exact ⟨fun h => by cases h; exact .inl rfl, fun
    | .inl h => by cases h; rfl
    | .inr ⟨_, h, _⟩ => (nomatch h)⟩
  | ok a => exact ⟨fun h => .inr ⟨a, rfl, h⟩, fun
    | .inl h => (nomatch h)
    | .inr ⟨_, ha, h⟩ => by cases ha; exact h⟩

theorem exists_of_isOk {x : Except ε α} (h : x.isOk = true) : ∃ a, x = .ok a := by
  cases x with
  | error e => cases h
  | ok a => exact ⟨a, rfl⟩

theorem pure_eq_ok : (pure a : Except ε α) = .ok b ↔ a = b :=
  ⟨fun h => by cases h; rfl, fun h => h ▸ rfl⟩

@[simp] theorem ok_bind (a : α) (f : α → Except ε β) : Except.ok a >>= f = f a := rfl

@[simp] theorem error_bind (e : ε) (f : α → Except ε β) : Except.error e >>= f = .error e := rfl

@[simp] theorem ok_map (a : α) (f : α → β) : f <$> (Except.ok a : Except ε α) = .ok (f a) := rfl

theorem mapM_eq_ok {f : α → Except ε β} {l : List α} {out : List β} :
    l.mapM f = .ok out ↔ List.Forall₂ (fun a b => f a = .ok b) l out := by
  induction l generalizing out with
  | nil => rw [List.mapM_nil, pure_eq_ok, List.forall₂_nil_left_iff, eq_comm]
  | cons a l ih =>
    simp only [List.mapM_cons, bind_eq_ok, pure_eq_ok, List.forall₂_cons_left_iff, ih]
    constructor
    · rintro ⟨b, hb, later, hl, rfl⟩
      exact ⟨b, later, hb, hl, rfl⟩
    · rintro ⟨b, later, hb, hl, rfl⟩
      exact ⟨b, hb, later, hl, rfl⟩

theorem mapM_eq_ok_map {f : α → Except ε β} {g : α → β} {l : List α}
    (h : ∀ a ∈ l, f a = .ok (g a)) : l.mapM f = .ok (l.map g) := by
  rw [mapM_eq_ok, List.forall₂_map_right_iff, List.forall₂_same]
  exact h

theorem mapM_congr {f g : α → Except ε β} {l : List α} (h : ∀ a ∈ l, f a = g a) :
    l.mapM f = l.mapM g := by
  induction l with
  | nil => rfl
  | cons a l ih =>
    rw [List.forall_mem_cons] at h
    rw [List.mapM_cons, List.mapM_cons, h.1, ih h.2]

theorem exists_of_mapM_eq_error {f : α → Except ε β} {l : List α} (h : l.mapM f = .error e) :
    ∃ a ∈ l, f a = .error e := by
  induction l with
  | nil => cases h
  | cons a l ih =>
    rw [List.mapM_cons, bind_eq_error] at h
    rcases h with h | ⟨b, -, h⟩
    · exact ⟨a, List.mem_cons_self, h⟩
    rcases bind_eq_error.mp h with h | ⟨_, -, h⟩
    · obtain ⟨a', ha, h⟩ := ih h
      exact ⟨a', List.mem_cons_of_mem _ ha, h⟩
    · cases h

theorem foldlM_eq_error {f : β → α → Except ε β} {l : List α} {b : β} :
    l.foldlM f b = .error e ↔ ∃ before a after b', l = before ++ a :: after ∧
      before.foldlM f b = .ok b' ∧ f b' a = .error e := by
  induction l generalizing b with
  | nil => simp [pure, Except.pure]
  | cons a l ih =>
    rw [List.foldlM_cons, bind_eq_error]
    constructor
    · rintro (h | ⟨c, hc, h⟩)
      · exact ⟨[], a, l, b, rfl, rfl, h⟩
      · obtain ⟨before, a', after, b', rfl, hb, h⟩ := ih.mp h
        exact ⟨a :: before, a', after, b', rfl, bind_eq_ok.mpr ⟨c, hc, hb⟩, h⟩
    · rintro ⟨before, a', after, b', hl, hb, h⟩
      cases before with
      | nil =>
        cases hl
        cases hb
        exact .inl h
      | cons _ before =>
        cases hl
        obtain ⟨c, hc, hb⟩ := bind_eq_ok.mp hb
        exact .inr ⟨c, hc, ih.mpr ⟨before, a', after, b', rfl, hb, h⟩⟩

theorem forM_eq_ok {f : α → Except ε PUnit} {l : List α} :
    l.forM f = .ok u ↔ ∀ a ∈ l, f a = .ok ⟨⟩ := by
  induction l with
  | nil => exact ⟨fun _ => nofun, fun _ => rfl⟩
  | cons a l ih =>
    show (f a >>= fun _ => l.forM f) = .ok u ↔ _
    rw [bind_eq_ok, List.forall_mem_cons]
    constructor
    · rintro ⟨⟨⟩, ha, hl⟩
      exact ⟨ha, ih.mp hl⟩
    · rintro ⟨ha, hl⟩
      exact ⟨⟨⟩, ha, ih.mpr hl⟩

theorem exists_of_forM_eq_error {f : α → Except ε PUnit} {l : List α} (h : l.forM f = .error e) :
    ∃ a ∈ l, f a = .error e := by
  induction l with
  | nil => cases h
  | cons a l ih =>
    have h : (f a >>= fun _ => l.forM f) = .error e := h
    rcases bind_eq_error.mp h with h | ⟨_, -, h⟩
    · exact ⟨a, List.mem_cons_self, h⟩
    · obtain ⟨a', ha, h⟩ := ih h
      exact ⟨a', List.mem_cons_of_mem _ ha, h⟩

theorem mapError_eq_ok {f : ε → ε'} {x : Except ε α} : x.mapError f = .ok a ↔ x = .ok a := by
  cases x <;> simp [Except.mapError]

theorem mapError_eq_error {f : ε → ε'} {x : Except ε α} :
    x.mapError f = .error e' ↔ ∃ e, x = .error e ∧ f e = e' := by
  cases x <;> simp [Except.mapError]

-- ---------------------------------------------------------------------------
-- Two outcomes
-- ---------------------------------------------------------------------------

/-- Both outcomes are errors that `E` relates, or both are values that `A` relates. -/
inductive Parallel (E : ε → ε' → Prop) (A : α → α' → Prop) : Except ε α → Except ε' α' → Prop
  | ok : A a b → Parallel E A (.ok a) (.ok b)
  | error : E e e' → Parallel E A (.error e) (.error e')

theorem Parallel.map {E : ε → ε' → Prop} {A : α → α' → Prop} {B : β → β' → Prop}
    {x : Except ε α} {y : Except ε' α'} {f : α → β} {g : α' → β'} (h : Parallel E A x y)
    (hfg : ∀ a b, A a b → B (f a) (g b)) : Parallel E B (f <$> x) (g <$> y) := by
  cases h with
  | ok h => exact .ok (hfg _ _ h)
  | error h => exact .error h

theorem Parallel.bind {E : ε → ε' → Prop} {A : α → α' → Prop} {B : β → β' → Prop}
    {x : Except ε α} {y : Except ε' α'} {f : α → Except ε β} {g : α' → Except ε' β'}
    (h : Parallel E A x y) (hfg : ∀ a b, A a b → Parallel E B (f a) (g b)) :
    Parallel E B (x >>= f) (y >>= g) := by
  cases h with
  | ok h => exact hfg _ _ h
  | error h => exact .error h

theorem Parallel.mapM {E : ε → ε' → Prop} {B : β → β' → Prop} {f : α → Except ε β}
    {g : α' → Except ε' β'} (h : List.Forall₂ (fun a b => Parallel E B (f a) (g b)) l l') :
    Parallel E (List.Forall₂ B) (l.mapM f) (l'.mapM g) := by
  induction h with
  | nil => exact .ok .nil
  | cons h _ ih =>
    rw [List.mapM_cons, List.mapM_cons]
    refine h.bind fun b b' hb => ih.bind fun bs bs' hbs => ?_
    exact .ok (.cons hb hbs)

theorem Parallel.mapError {E : ε → ε' → Prop} {E' : δ → δ' → Prop} {A : α → α' → Prop}
    {x : Except ε α} {y : Except ε' α'} {f : ε → δ} {g : ε' → δ'} (h : Parallel E A x y)
    (hfg : ∀ e e', E e e' → E' (f e) (g e')) : Parallel E' A (x.mapError f) (y.mapError g) := by
  cases h with
  | ok h => exact .ok h
  | error h => exact .error (hfg _ _ h)

theorem Parallel.exists_of_ok {E : ε → ε' → Prop} {A : α → α' → Prop} {y : Except ε' α'}
    (h : Parallel E A (.ok a) y) : ∃ b, y = .ok b ∧ A a b := by
  cases h with
  | ok h => exact ⟨_, rfl, h⟩

theorem isSome_eq_of_rel {R : α → β → Prop} (h : Option.Rel R x y) : x.isSome = y.isSome := by
  cases h <;> rfl

theorem eq_none_of_rel {R : α → β → Prop} (h : Option.Rel R none y) : y = none := by
  cases h; rfl

theorem exists_of_rel {R : α → β → Prop} (h : Option.Rel R (some a) y) :
    ∃ b, y = some b ∧ R a b := by
  cases h with
  | some h => exact ⟨_, rfl, h⟩

-- ---------------------------------------------------------------------------
-- Lists member by member
-- ---------------------------------------------------------------------------

theorem exists_of_mem_right {R : α → β → Prop} (h : List.Forall₂ R l l') (hb : b ∈ l') :
    ∃ a ∈ l, R a b := by
  induction h with
  | nil => cases hb
  | @cons a b' l l' hr _ ih =>
    rcases List.mem_cons.mp hb with rfl | hb
    · exact ⟨a, List.mem_cons_self, hr⟩
    · obtain ⟨a', ha, hr⟩ := ih hb
      exact ⟨a', List.mem_cons_of_mem _ ha, hr⟩

theorem exists_of_mem_left {R : α → β → Prop} (h : List.Forall₂ R l l') (ha : a ∈ l) :
    ∃ b ∈ l', R a b :=
  exists_of_mem_right h.flip ha

/-- What goes with a list can be exchanged for what goes with another, member by member. -/
theorem exists_forall₂_along {R : α → β → Prop} {S : α → γ → Prop} {T : β → δ → Prop}
    {U : γ → δ → Prop} (h : List.Forall₂ R l l') (h' : List.Forall₂ S l m)
    (hT : ∀ a b c, R a b → S a c → ∃ d, T b d ∧ U c d) :
    ∃ m', List.Forall₂ T l' m' ∧ List.Forall₂ U m m' := by
  induction h generalizing m with
  | nil => cases h'; exact ⟨[], .nil, .nil⟩
  | cons hr _ ih =>
    obtain _ | ⟨hs, hl⟩ := h'
    obtain ⟨d, hd, hc⟩ := hT _ _ _ hr hs
    obtain ⟨ds, hds, hcs⟩ := ih hl
    exact ⟨d :: ds, .cons hd hds, .cons hc hcs⟩

theorem forall₂_mem {R : α → β → Prop} {l : List α} {l' : List β} (h : List.Forall₂ R l l') :
    List.Forall₂ (fun a b => a ∈ l ∧ b ∈ l' ∧ R a b) l l' := by
  induction h with
  | nil => exact .nil
  | cons h _ ih =>
    refine .cons ⟨List.mem_cons_self, List.mem_cons_self, h⟩ (ih.imp fun a b h => ?_)
    exact ⟨List.mem_cons_of_mem _ h.1, List.mem_cons_of_mem _ h.2.1, h.2.2⟩

theorem forall_split_cons {p : List α → α → List α → Prop} :
    (∀ before b after, a :: l = before ++ b :: after → p before b after) ↔
      p [] a l ∧ ∀ before b after, l = before ++ b :: after → p (a :: before) b after := by
  constructor
  · intro h
    exact ⟨h [] a l rfl, fun before b after hl => h (a :: before) b after (congrArg (a :: ·) hl)⟩
  · rintro ⟨hhead, htail⟩ before b after hl
    cases before with
    | nil =>
      obtain ⟨rfl, rfl⟩ := List.cons.inj hl
      exact hhead
    | cons _ before =>
      obtain ⟨rfl, hafter⟩ := List.cons.inj hl
      exact htail before b after hafter

end Formula
