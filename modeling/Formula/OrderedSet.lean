/-!
# Finite sets in ascending order

A set is the list of its elements, each once, in ascending order. So two sets
with the same elements are equal, whatever order the elements came in, and the
list itself is what a report prints.
-/

namespace Formula

open Std (TransOrd LawfulEqOrd)

/-- A finite set, held as its elements in ascending order. -/
structure OrderedSet (α : Type) [Ord α] where
  toList : List α
  ascending : toList.Pairwise (fun a b => compare a b = .lt)

namespace OrderedSet

variable {α : Type} [Ord α]

def place (a : α) : List α → List α
  | [] => [a]
  | b :: rest =>
    match compare a b with
    | .lt => a :: b :: rest
    | .eq => b :: rest
    | .gt => b :: place a rest

theorem mem_place [LawfulEqOrd α] {a x : α} {xs : List α} :
    x ∈ place a xs ↔ x = a ∨ x ∈ xs := by
  induction xs with
  | nil => simp [place]
  | cons b rest ih =>
    simp only [place]
    split
    · simp
    · rename_i h
      simp [Std.LawfulEqCmp.eq_of_compare h]
    · simp [ih, or_left_comm]

theorem ascending_place [TransOrd α] [LawfulEqOrd α] (a : α) {xs : List α}
    (h : xs.Pairwise (fun a b => compare a b = .lt)) :
    (place a xs).Pairwise (fun a b => compare a b = .lt) := by
  induction xs with
  | nil => simp [place]
  | cons b rest ih =>
    obtain ⟨hb, hrest⟩ := List.pairwise_cons.mp h
    simp only [place]
    split
    · rename_i hlt
      refine List.pairwise_cons.mpr ⟨fun x hx => ?_, h⟩
      rcases List.mem_cons.mp hx with rfl | hx
      · exact hlt
      · exact Std.TransCmp.lt_trans hlt (hb x hx)
    · exact h
    · rename_i hgt
      refine List.pairwise_cons.mpr ⟨fun x hx => ?_, ih hrest⟩
      rcases mem_place.mp hx with rfl | hx
      · exact Std.OrientedCmp.lt_of_gt hgt
      · exact hb x hx

instance : EmptyCollection (OrderedSet α) := ⟨⟨[], .nil⟩⟩

instance : Inhabited (OrderedSet α) := ⟨∅⟩

instance : Membership α (OrderedSet α) := ⟨fun s a => a ∈ s.toList⟩

instance [DecidableEq α] (a : α) (s : OrderedSet α) : Decidable (a ∈ s) :=
  inferInstanceAs (Decidable (a ∈ s.toList))

instance [DecidableEq α] : DecidableEq (OrderedSet α) := fun s t =>
  decidable_of_iff (s.toList = t.toList)
    ⟨fun h => by cases s; cases t; cases h; rfl, fun h => h ▸ rfl⟩

variable [TransOrd α] [LawfulEqOrd α]

def insert (a : α) (s : OrderedSet α) : OrderedSet α :=
  ⟨place a s.toList, ascending_place a s.ascending⟩

def ofList (xs : List α) : OrderedSet α := xs.foldr insert ∅

def union (s t : OrderedSet α) : OrderedSet α := s.toList.foldr insert t

-- ---------------------------------------------------------------------------
-- The elements
-- ---------------------------------------------------------------------------

omit [TransOrd α] [LawfulEqOrd α] in
theorem mem_toList {a : α} {s : OrderedSet α} : a ∈ s.toList ↔ a ∈ s := Iff.rfl

omit [TransOrd α] [LawfulEqOrd α] in
@[simp] theorem not_mem_empty (a : α) : a ∉ (∅ : OrderedSet α) := List.not_mem_nil

@[simp] theorem mem_insert {a x : α} {s : OrderedSet α} : x ∈ s.insert a ↔ x = a ∨ x ∈ s :=
  mem_place

@[simp] theorem mem_ofList {x : α} {xs : List α} : x ∈ ofList xs ↔ x ∈ xs := by
  induction xs with
  | nil => simp [ofList]
  | cons a rest ih =>
    show x ∈ insert a (ofList rest) ↔ _
    rw [mem_insert, ih, List.mem_cons]

@[simp] theorem mem_union {x : α} {s t : OrderedSet α} : x ∈ s.union t ↔ x ∈ s ∨ x ∈ t := by
  have h : ∀ xs : List α, x ∈ xs.foldr insert t ↔ x ∈ xs ∨ x ∈ t := by
    intro xs
    induction xs with
    | nil => simp
    | cons a rest ih => simp [ih, or_assoc]
  exact h s.toList

end OrderedSet

end Formula
