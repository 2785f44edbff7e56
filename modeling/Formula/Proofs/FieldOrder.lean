import Formula.Datum
import Formula.Proofs.Outcome
import Mathlib.Data.List.Nodup

/-!
# Data up to the order of entries

A notation for data keeps all values, but it may write the entries of a mapping in another order.
Where the names of the fields are distinct, the order makes no difference to what is found under
a name.
-/

namespace Formula.Datum

mutual
/-- The same datum but for the order of entries, at every level. -/
inductive Reordered : Datum → Datum → Prop
  | scalar (n : Number) : Reordered (.scalar n) (.scalar n)
  | text (s : String) : Reordered (.text s) (.text s)
  | list : ReorderedItems ds es → Reordered (.list ds) (.list es)
  | mapping : ReorderedEntries fs gs → gs.Perm hs → ReorderedEntries ss ts → ts.Perm us →
      Reordered (.mapping fs ss) (.mapping hs us)
inductive ReorderedItems : List Datum → List Datum → Prop
  | nil : ReorderedItems [] []
  | cons : Reordered d e → ReorderedItems ds es → ReorderedItems (d :: ds) (e :: es)
inductive ReorderedEntries : {κ : Type} → List (κ × Datum) → List (κ × Datum) → Prop
  | nil {κ : Type} : @ReorderedEntries κ [] []
  | cons {κ : Type} (key : κ) {fs gs : List (κ × Datum)} : Reordered d e →
      ReorderedEntries fs gs → ReorderedEntries ((key, d) :: fs) ((key, e) :: gs)
end

variable {d e : Datum} {fs gs hs : List (String × Datum)}

-- ---------------------------------------------------------------------------
-- Fields under a name
-- ---------------------------------------------------------------------------

theorem lookup_eq_some {β : Type} {l : List (String × β)} (hdistinct : (l.map (·.1)).Nodup)
    {name : String} {b : β} : l.lookup name = some b ↔ (name, b) ∈ l := by
  induction l with
  | nil => simp
  | cons f l ih =>
    obtain ⟨key, b'⟩ := f
    obtain ⟨hkey, hdistinct⟩ := List.nodup_cons.mp hdistinct
    rw [List.lookup_cons, List.mem_cons, Prod.mk.injEq]
    by_cases hname : name = key
    · subst hname
      have hnot : (name, b) ∉ l := fun h => hkey (List.mem_map.mpr ⟨_, h, rfl⟩)
      simp [hnot, eq_comm]
    · simp [beq_eq_false_iff_ne.mpr hname, hname, ih hdistinct]

theorem field?_eq_lookup (fs : List (String × Datum)) (name : String) :
    field? fs name = fs.lookup name := by
  induction fs with
  | nil => rfl
  | cons f fs ih =>
    rw [field?, List.lookup_cons, ih]
    by_cases h : name = f.1
    · simp [h]
    · simp [beq_eq_false_iff_ne.mpr h, Ne.symm h]

theorem field?_eq_some (hdistinct : (fs.map (·.1)).Nodup) :
    field? fs name = some d ↔ (name, d) ∈ fs := by
  rw [field?_eq_lookup, lookup_eq_some hdistinct]

theorem field?_perm (h : fs.Perm gs) (hdistinct : (fs.map (·.1)).Nodup) (name : String) :
    field? fs name = field? gs name := by
  have hdistinct' : (gs.map (·.1)).Nodup := (h.map _).nodup_iff.mp hdistinct
  refine Option.ext fun d => ?_
  rw [field?_eq_some hdistinct, field?_eq_some hdistinct', h.mem_iff]

-- ---------------------------------------------------------------------------
-- Data that are the same but for the order
-- ---------------------------------------------------------------------------

theorem reorderedItems_iff : ReorderedItems ds es ↔ List.Forall₂ Reordered ds es := by
  constructor
  · intro h
    induction ds generalizing es with
    | nil => cases h; exact .nil
    | cons d ds ih =>
      obtain _ | ⟨hd, hds⟩ := h
      exact .cons hd (ih hds)
  · intro h
    induction h with
    | nil => exact .nil
    | cons hd _ ih => exact .cons hd ih

mutual
theorem Reordered.refl : (d : Datum) → d.Reordered d
  | .scalar n => .scalar n
  | .text s => .text s
  | .list ds => .list (ReorderedItems.refl ds)
  | .mapping fs ss =>
    .mapping (ReorderedEntries.refl fs) (.refl _) (ReorderedEntries.reflStrays ss) (.refl _)
theorem ReorderedItems.refl : (ds : List Datum) → ReorderedItems ds ds
  | [] => .nil
  | d :: ds => .cons (Reordered.refl d) (ReorderedItems.refl ds)
theorem ReorderedEntries.refl : (fs : List (String × Datum)) → ReorderedEntries fs fs
  | [] => .nil
  | (key, d) :: fs => .cons key (Reordered.refl d) (ReorderedEntries.refl fs)
theorem ReorderedEntries.reflStrays : (ss : List (Number × Datum)) → ReorderedEntries ss ss
  | [] => .nil
  | (key, d) :: ss => .cons key (Reordered.refl d) (ReorderedEntries.reflStrays ss)
end

theorem Reordered.record (h : ReorderedEntries fs gs) (hperm : gs.Perm hs) :
    Reordered (.record fs) (.record hs) :=
  .mapping h hperm .nil (.refl _)

section Entries

variable {κ : Type} {fs gs hs : List (κ × Datum)}

theorem ReorderedEntries.keys_eq (h : ReorderedEntries fs gs) : fs.map (·.1) = gs.map (·.1) := by
  induction fs generalizing gs with
  | nil => cases h; rfl
  | cons f fs ih =>
    obtain _ | ⟨key, hd, hfs⟩ := h
    exact congrArg (key :: ·) (ih hfs)

theorem ReorderedEntries.length_eq (h : ReorderedEntries fs gs) (hperm : gs.Perm hs) :
    fs.length = hs.length := by
  have hlength := congrArg List.length h.keys_eq
  rwa [List.length_map, List.length_map, hperm.length_eq] at hlength

end Entries

theorem ReorderedEntries.field? (h : ReorderedEntries fs gs) (name : String) :
    Option.Rel Reordered (field? fs name) (field? gs name) := by
  induction fs generalizing gs with
  | nil => cases h; exact .none
  | cons f fs ih =>
    obtain _ | ⟨key, hd, hfs⟩ := h
    rw [Datum.field?, Datum.field?]
    split
    · exact .some hd
    · exact ih hfs

theorem Reordered.exists_record (h : Reordered (.record fs) d) (hdistinct : (fs.map (·.1)).Nodup) :
    ∃ hs, d = .record hs ∧ ∀ name c, field? fs name = some c →
      ∃ c', field? hs name = some c' ∧ c.Reordered c' := by
  obtain _ | _ | _ | ⟨hfs, hperm, hstrays, hnone⟩ := h
  cases hstrays
  obtain rfl := hnone.nil_eq
  refine ⟨_, rfl, fun name c hc => ?_⟩
  rw [hfs.keys_eq] at hdistinct
  have hrel := hfs.field? name
  rw [hc, field?_perm hperm hdistinct] at hrel
  exact exists_of_rel hrel

theorem Reordered.eq_of_isAtom (h : d.Reordered e) (hd : d.isAtom = true) : d = e := by
  cases h <;> first | rfl | cases hd

theorem Reordered.atMost?_scalar (h : d.Reordered e) (n : Number) :
    d.atMost? (.scalar n) = e.atMost? (.scalar n) ∧
      atMost? (.scalar n) d = atMost? (.scalar n) e := by
  cases h <;> exact ⟨rfl, rfl⟩

theorem Reordered.isVoid_eq (h : d.Reordered e) : d.isVoid = e.isVoid := by
  cases h with
  | scalar | text => rfl
  | list h => cases h <;> rfl
  | mapping h hperm hstrays hperm' =>
    rw [isVoid, isVoid, Bool.eq_iff_iff, Bool.and_eq_true_iff, Bool.and_eq_true_iff]
    simp only [List.isEmpty_iff_length_eq_zero, h.length_eq hperm, hstrays.length_eq hperm']

theorem Reordered.holds_eq (h : d.Reordered e) : d.holds = e.holds := by
  rw [holds, holds, h.isVoid_eq]

theorem sameFields_eq_all (fs gs : List (String × Datum)) :
    sameFields fs gs = fs.all fun f => (field? gs f.1).any f.2.same := by
  induction fs with
  | nil => rw [sameFields, List.all_nil]
  | cons f fs ih =>
    obtain ⟨key, d⟩ := f
    rw [sameFields, ih, List.all_cons]
    cases field? gs key <;> rfl

theorem sameStrays_eq_all (ss ts : List (Number × Datum)) :
    sameStrays ss ts = ss.all fun s => (stray? ts s.1).any s.2.same := by
  induction ss with
  | nil => rw [sameStrays, List.all_nil]
  | cons s ss ih =>
    obtain ⟨key, d⟩ := s
    rw [sameStrays, ih, List.all_cons]
    cases stray? ts key <;> rfl

mutual
/-- What is equal to a datum is equal to it in any order of entries. -/
theorem Reordered.same_eq : (d e : Datum) → d.Reordered e → ∀ c, e.same c = d.same c
  | .scalar _, _, .scalar _, _ => rfl
  | .text _, _, .text _, _ => rfl
  | .list ds, .list es, .list h, c => by
    cases c <;> simp only [same, ReorderedItems.same_eq ds es h]
  | .mapping fs ss, .mapping hs us, .mapping h hperm hstrays hperm', c => by
    cases c with
    | mapping cs bs =>
      rw [same, same, h.length_eq hperm, hstrays.length_eq hperm',
        ← ReorderedEntries.sameFields_eq fs _ h cs,
        ← ReorderedEntries.sameStrays_eq ss _ hstrays bs]
      simp only [sameFields_eq_all, sameStrays_eq_all, hperm.all_eq, hperm'.all_eq]
    | _ => simp only [same]
theorem ReorderedItems.same_eq : (ds es : List Datum) → ReorderedItems ds es →
    ∀ cs, sameItems es cs = sameItems ds cs
  | [], [], .nil, _ => rfl
  | d :: ds, e :: es, .cons hd hds, cs => by
    cases cs <;> simp only [sameItems, Reordered.same_eq d e hd, ReorderedItems.same_eq ds es hds]
theorem ReorderedEntries.sameFields_eq : (fs gs : List (String × Datum)) →
    ReorderedEntries fs gs → ∀ cs, sameFields gs cs = sameFields fs cs
  | [], [], .nil, _ => rfl
  | (_, d) :: fs, (_, e) :: gs, .cons _ hd hfs, cs => by
    simp only [sameFields, Reordered.same_eq d e hd, ReorderedEntries.sameFields_eq fs gs hfs]
theorem ReorderedEntries.sameStrays_eq : (ss ts : List (Number × Datum)) →
    ReorderedEntries ss ts → ∀ cs, sameStrays ts cs = sameStrays ss cs
  | [], [], .nil, _ => rfl
  | (_, d) :: ss, (_, e) :: ts, .cons _ hd hss, cs => by
    simp only [sameStrays, Reordered.same_eq d e hd, ReorderedEntries.sameStrays_eq ss ts hss]
end

end Formula.Datum
