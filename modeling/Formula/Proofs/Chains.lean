import Formula.Proofs.MoreLevels
import Formula.Proofs.Relations
import Formula.Proofs.RoundTrip
import Mathlib.Data.List.Induction

/-!
# Chains of comparisons

A text with relations is read as a chain: its first side is compared with the second, the result
with the third, and so on. So the value of a chain is made from the values of its sides one after
the other, as long as there are levels enough: a chain takes three more for each of its relations.
-/

namespace Formula

variable {vs : Values} {fs : FunctionTable}

-- ---------------------------------------------------------------------------
-- Sides
-- ---------------------------------------------------------------------------

structure Side where
  tree : Expr
  value : Float

structure Sides where
  first : Side
  links : List (Relation × Side)

/-- The side has its double if it is walked with so many levels. -/
def Side.HasValue (vs : Values) (fs : FunctionTable) (room : Nat) (s : Side) : Prop :=
  s.tree.outcome room vs fs = .ok (some s.value)

theorem Side.hasValue_of_number {s : Side} (hs : s.tree.isNumeric = true)
    (h : s.tree.number room vs fs = .ok s.value) : s.HasValue vs fs (room + 1) := by
  obtain ⟨e, x⟩ := s
  replace h : e.number room vs fs = .ok x := h
  cases e with
  | missing | compare => cases hs
  | _ => exact congrArg (some <$> ·) h

namespace Sides

def all (c : Sides) : List Side := c.first :: c.links.map (·.2)

/-- The tree compared with the sides from left to right: each comparison is the left side of the
next. -/
def compared (left : Expr) (links : List (Relation × Side)) : Expr :=
  links.foldl (fun left link => .compare link.1 left link.2.tree) left

def tree (c : Sides) : Expr := compared c.first.tree c.links

def valueFrom (left : Option Float) (links : List (Relation × Side)) : Option Float :=
  links.foldl (fun x link => link.1.value x (some link.2.value)) left

structure ComeTo (vs : Values) (fs : FunctionTable) (c : Sides) (value truth : Option Float) :
    Prop where
  /-- The program walks `Expr.levels` levels. -/
  levels : c.tree.value vs fs = c.tree.outcome Expr.levels vs fs ∧
    c.tree.truth vs fs = c.tree.truthWithin Expr.levels vs fs
  /-- If `room` levels are enough for every side, those and three for each relation are enough for
  the chain. -/
  enough : ∀ room, (∀ k, room ≤ k → ∀ s ∈ c.all, s.HasValue vs fs k) →
    ∀ k, room + 3 * c.links.length ≤ k →
      c.tree.outcome k vs fs = .ok value ∧ c.tree.truthWithin k vs fs = .ok truth
  /-- If every side has its double with some number of levels, nothing else becomes of the chain
  with any number of them, unless there are too few. -/
  upToLevels : ∀ room, (∀ s ∈ c.all, s.HasValue vs fs room) →
    (∀ d ∈ c.tree.callees, ∀ b, d.body? fs = some b → b.GivesUp) →
    ∀ k, UpToLevels (c.tree.outcome k vs fs) (.ok value) ∧
      UpToLevels (c.tree.truthWithin k vs fs) (.ok truth)

variable {links : List (Relation × Side)} {left : Expr} {x : Option Float} {room : Nat}

-- ---------------------------------------------------------------------------
-- Values of chains
-- ---------------------------------------------------------------------------

theorem compared_concat (left : Expr) (links : List (Relation × Side)) (r : Relation) (s : Side) :
    compared left (links ++ [(r, s)]) = .compare r (compared left links) s.tree := by
  simp [compared]

theorem callees_compared (left : Expr) (links : List (Relation × Side)) :
    (compared left links).callees = left.callees ++ links.flatMap (·.2.tree.callees) := by
  induction links generalizing left with
  | nil => simp [compared]
  | cons link links ih =>
    show (compared _ links).callees = _
    rw [ih, Expr.callees, List.append_assoc]
    rfl

theorem callees_subset {c : Sides} {s : Side} (hs : s ∈ c.all) :
    s.tree.callees ⊆ c.tree.callees := by
  rw [tree, callees_compared]
  rcases List.mem_cons.mp hs with rfl | hs
  · exact List.subset_append_left _ _
  · obtain ⟨link, hlink, rfl⟩ := List.mem_map.mp hs
    intro d hd
    exact List.mem_append_right _ (List.mem_flatMap.mpr ⟨link, hlink, hd⟩)

theorem outcome_compare {r : Relation} {l e : Expr} (hl : l.outcome room vs fs = .ok x)
    (he : e.outcome room vs fs = .ok y) :
    (Expr.compare r l e).outcome (room + 3) vs fs = .ok (r.value x y) := by
  simp only [Expr.outcome, hl, he, ok_bind]
  rfl

theorem outcome_compared (hleft : ∀ k, room ≤ k → left.outcome k vs fs = .ok x)
    (hlinks : ∀ k, room ≤ k → ∀ link ∈ links, link.2.HasValue vs fs k) {k : Nat}
    (hk : room + 3 * links.length ≤ k) :
    (compared left links).outcome k vs fs = .ok (valueFrom x links) := by
  induction links generalizing left x room with
  | nil => exact hleft k hk
  | cons link links ih =>
    have hlink : ∀ k, room + 3 ≤ k → (Expr.compare link.1 left link.2.tree).outcome k vs fs =
        .ok (link.1.value x (some link.2.value)) := by
      intro k hk
      obtain ⟨k, rfl⟩ := Nat.exists_eq_add_of_le' (Nat.le_trans (Nat.le_add_left 3 room) hk)
      have hk := Nat.le_of_add_le_add_right hk
      exact outcome_compare (hleft k hk) (hlinks k hk link List.mem_cons_self)
    rw [List.length_cons] at hk
    exact ih hlink (fun k hk link hlink =>
      hlinks k (Nat.le_of_add_right_le hk) link (List.mem_cons_of_mem _ hlink)) (by omega)

theorem compared_upToLevels (hleft : ∀ k, UpToLevels (left.outcome k vs fs) (.ok x))
    (hlinks : ∀ link ∈ links, ∀ k,
      UpToLevels (link.2.tree.outcome k vs fs) (.ok (some link.2.value))) (k : Nat) :
    UpToLevels ((compared left links).outcome k vs fs) (.ok (valueFrom x links)) := by
  induction links generalizing left x with
  | nil => exact hleft k
  | cons link links ih =>
    obtain ⟨hlink, hlinks⟩ := List.forall_mem_cons.mp hlinks
    refine ih (fun k => ?_) hlinks
    match k with
    | 0 | 1 | 2 => exact .inl rfl
    | k + 3 => exact (hleft k).bind fun _ => (hlink k).bind fun _ => .refl _

/-- A chain has the value that is made from those of its sides, and is as true as its last
comparison. -/
theorem comeTo {c : Sides} {r : Relation} {last : Side} (hc : c.links = links ++ [(r, last)]) :
    c.ComeTo vs fs (r.value (valueFrom (some c.first.value) links) (some last.value))
      (r.truth (valueFrom (some c.first.value) links) (some last.value)) := by
  have htree : c.tree = .compare r (compared c.first.tree links) last.tree := by
    rw [tree, hc, compared_concat]
  have hlast : last ∈ c.all := by simp [all, hc]
  have hlinks : ∀ link ∈ links, link.2 ∈ c.all := by
    intro link hlink
    simp only [all, hc, List.map_append, List.mem_cons, List.mem_append]
    exact .inr (.inl (List.mem_map_of_mem hlink))
  refine ⟨⟨rfl, rfl⟩, ?_, ?_⟩
  · intro room hsides k hk
    have hleft : ∀ k, room + 3 * links.length ≤ k →
        (compared c.first.tree links).outcome k vs fs =
          .ok (valueFrom (some c.first.value) links) := fun k hk =>
      outcome_compared (fun k hk => hsides k hk c.first List.mem_cons_self)
        (fun k hk link hlink => hsides k hk _ (hlinks link hlink)) hk
    have hright (k : Nat) (hk : room ≤ k) := hsides k hk last hlast
    simp only [Side.HasValue] at hright
    rw [hc, List.length_append, List.length_singleton] at hk
    obtain ⟨k, rfl⟩ : ∃ below, k = below + 3 := ⟨k - 3, by omega⟩
    rw [htree]
    refine ⟨outcome_compare (hleft k (by omega)) (hright k (by omega)), ?_⟩
    simp only [Expr.truthWithin, hleft (k + 1) (by omega), hright (k + 1) (by omega), ok_bind]
    rfl
  · intro room hsides hgives k
    have hside : ∀ s ∈ c.all, ∀ k, UpToLevels (s.tree.outcome k vs fs) (.ok (some s.value)) :=
      fun s hs => Expr.outcome_upToLevels
        (fun d hd => hgives d (callees_subset hs hd)) (hsides s hs)
    have hleft := compared_upToLevels (hside c.first List.mem_cons_self)
      fun link hlink => hside _ (hlinks link hlink)
    have hright := hside last hlast
    rw [htree]
    constructor
    · match k with
      | 0 | 1 | 2 => exact .inl rfl
      | k + 3 => exact (hleft k).bind fun _ => (hright k).bind fun _ => .refl _
    · match k with
      | 0 | 1 => exact .inl rfl
      | k + 2 => exact (hleft k).bind fun _ => (hright k).bind fun _ => .refl _

-- ---------------------------------------------------------------------------
-- Long chains
-- ---------------------------------------------------------------------------

theorem outcome_compared_tooDeep (left : Expr) (h : room ≤ 3 * links.length) :
    (compared left links).outcome room vs fs = .error .tooDeep := by
  induction links using List.reverseRecOn generalizing room with
  | nil =>
    obtain rfl := Nat.le_zero.mp h
    rfl
  | append_singleton links link ih =>
    rw [List.length_append, List.length_singleton] at h
    rw [compared_concat]
    match room with
    | 0 | 1 | 2 => rfl
    | room + 3 => rw [Expr.outcome, ih (by omega), error_bind]

theorem truthWithin_tree_tooDeep (c : Sides) (h : room < 3 * c.links.length) :
    c.tree.truthWithin room vs fs = .error .tooDeep := by
  obtain ⟨links, link, hc⟩ : ∃ links link, c.links = links ++ [link] :=
    (List.eq_nil_or_concat' c.links).resolve_left (List.ne_nil_of_length_pos (by omega))
  rw [hc, List.length_append, List.length_singleton] at h
  rw [tree, hc, compared_concat]
  match room with
  | 0 | 1 => rfl
  | room + 2 => rw [Expr.truthWithin, outcome_compared_tooDeep _ (by omega), error_bind]

end Sides

-- ---------------------------------------------------------------------------
-- Chains in texts
-- ---------------------------------------------------------------------------

/-- The tree is a chain of numeric sides, whatever doubles they stand for. -/
def Expr.IsChain (e : Expr) : Prop :=
  ∀ value : Expr → Float, ∃ c : Sides, c.tree = e ∧
    ∀ s ∈ c.all, s.tree.isNumeric = true ∧ s.value = value s.tree

theorem isChain_of_parseRelationsWithin (h : parseRelationsWithin l o text = .ok e) :
    e.IsChain := by
  intro value
  obtain ⟨-, hread⟩ := Parser.parseRelationsWithin_eq_ok.mp h
  obtain ⟨-, first, rights, hfirst, hrights, rfl⟩ := Parser.readChainWithin_eq_ok.mp hread
  refine ⟨⟨⟨first, value first⟩, rights.map fun right => (right.1, ⟨right.2, value right.2⟩)⟩,
    ?_, ?_⟩
  · simp [Sides.tree, Sides.compared, List.foldl_map]
  · intro s hs
    rcases List.mem_cons.mp hs with rfl | hs
    · exact ⟨Parser.isNumeric_of_readAt hfirst, rfl⟩
    · simp only [List.map_map, List.mem_map, Function.comp_apply] at hs
      obtain ⟨right, hright, rfl⟩ := hs
      obtain ⟨link, -, -, hlink⟩ := exists_of_mem_right hrights hright
      exact ⟨Parser.isNumeric_of_readAt hlink, rfl⟩

theorem parseRelationsWithin_source {c : Chain} (h : c.ReadsAs (parseWithin l o) e) :
    parseRelationsWithin l o c.source = .ok e := by
  obtain ⟨first, -, hfirst, -⟩ := id h
  have hcheck := (parseWithin_eq_ok.mp hfirst).1
  rw [Parser.parseRelationsWithin_eq_ok, Parser.readChainWithin_eq_ok, h.ofText_source,
    ← Parser.parseWithin_eq_readWithin hcheck]
  exact ⟨hcheck, h.unpaired?_eq_none, h⟩

theorem parseRelations_source {c : Chain} (h : c.ReadsAs (parseWithin Parser.limits o) e) :
    parseRelations o (.ofList c.source) = .ok e := by
  rw [parseRelations, String.toList_ofList]
  exact parseRelationsWithin_source h

def Chain.repeated (r : Relation) (n : Nat) : Chain := ⟨['x'], List.replicate n (r, ['x'])⟩

def Sides.repeated (r : Relation) (n : Nat) : Sides :=
  ⟨⟨.named "x", 1.0⟩, List.replicate n (r, ⟨.named "x", 1.0⟩)⟩

namespace Sides

theorem length_repeated (r : Relation) (n : Nat) : (repeated r n).links.length = n :=
  List.length_replicate

theorem eq_of_mem_repeated {r : Relation} {s : Side} (h : s ∈ (repeated r n).all) :
    s = ⟨.named "x", 1.0⟩ := by
  rw [all, repeated, List.map_replicate] at h
  exact (List.mem_cons.mp h).elim id List.eq_of_mem_replicate

theorem value_repeated (r : Relation) (h : Expr.levels ≤ 3 * n) (vs : Values) (fs : FunctionTable) :
    (repeated r n).tree.value vs fs = .error .tooDeep :=
  outcome_compared_tooDeep _ (by rwa [length_repeated])

theorem truth_repeated (r : Relation) (h : Expr.levels < 3 * n) (vs : Values) (fs : FunctionTable) :
    (repeated r n).tree.truth vs fs = .error .tooDeep :=
  truthWithin_tree_tooDeep _ (by rwa [length_repeated])

end Sides

theorem parse_x : parseWithin Parser.limits {} ['x'] = .ok (.named "x") := by
  have declared : Declared {} := checkDeclarations_eq_ok.mp rfl
  have hx : Word.ofString "x" ∈ (Options.vocabulary {}).words :=
    Options.mem_vocabulary.mpr (.inl (by decide))
  exact parseWithin_eq_ok.mpr ⟨rfl, Source.readAt_name declared hx rfl rfl rfl⟩

theorem parseRelations_repeated (r : Relation) (n : Nat) :
    parseRelations {} (.ofList (Chain.repeated r n).source) = .ok (Sides.repeated r n).tree := by
  refine parseRelations_source ⟨.named "x", List.replicate n (r, .named "x"), parse_x, ?_, ?_⟩
  · induction n with
    | zero => exact .nil
    | succ n ih => exact .cons ⟨rfl, parse_x⟩ ih
  · have hlinks : (Sides.repeated r n).links =
        (List.replicate n (r, Expr.named "x")).map fun right => (right.1, ⟨right.2, 1.0⟩) := by
      simp [Sides.repeated]
    rw [Sides.tree, Sides.compared, hlinks, List.foldl_map]
    rfl

end Formula
