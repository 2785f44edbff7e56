import Formula.Proofs.Chains
import Formula.Proofs.DoubleOrder

/-!
# Inequalities in a row

A comparison that is no equation has a value of its own, the side that wins it. So a row of
inequalities in one direction keeps the least or the greatest of the sides so far, and what its last
side is compared with is the least or the greatest of those before it.
-/

namespace Formula

variable {links : List (Relation × Side)}

namespace Sides

def values (c : Sides) : List Float := c.first.value :: c.links.map (·.2.value)

theorem values_concat (first : Side) (links : List (Relation × Side)) (r : Relation)
    (last : Side) :
    values ⟨first, links ++ [(r, last)]⟩ = values ⟨first, links⟩ ++ [last.value] := by
  simp [values]

theorem valueFrom_concat (left : Option Float) (links : List (Relation × Side))
    (link : Relation × Side) :
    valueFrom left (links ++ [link]) =
      link.1.value (valueFrom left links) (some link.2.value) := by
  simp [valueFrom]

end Sides

inductive Extreme where
  | least
  | greatest

namespace Extreme

def relations : Extreme → List Relation
  | .least => [.less, .lessEqual]
  | .greatest => [.greater, .greaterEqual]

/-- The first double is as good a choice as the second. -/
def Leads : Extreme → Float → Float → Prop
  | .least, x, y => x ≤ y
  | .greatest, x, y => x ≥ y

instance : (w : Extreme) → (x y : Float) → Decidable (w.Leads x y)
  | .least, x, y => inferInstanceAs (Decidable (x ≤ y))
  | .greatest, x, y => inferInstanceAs (Decidable (x ≥ y))

/-- One of the doubles, which leads all of them. -/
structure Chooses (w : Extreme) (xs : List Float) (x : Float) : Prop where
  mem : x ∈ xs
  leads : ∀ y ∈ xs, w.Leads x y

variable {w : Extreme} {r : Relation} {x y z : Float} {xs : List Float}

-- ---------------------------------------------------------------------------
-- Leading doubles
-- ---------------------------------------------------------------------------

theorem eq_or_eq (hr : r ∈ w.relations) :
    (w = .least ∧ (r = .less ∨ r = .lessEqual)) ∨
      (w = .greatest ∧ (r = .greater ∨ r = .greaterEqual)) := by
  cases w <;> simpa [relations] using hr

theorem leads_refl (hx : x.isNaN = false) : w.Leads x x := by
  cases w <;> exact Double.le_refl hx

theorem Leads.trans (hx : x.isNaN = false) (hy : y.isNaN = false) (hz : z.isNaN = false)
    (hxy : w.Leads x y) (hyz : w.Leads y z) : w.Leads x z := by
  cases w with
  | least => exact Double.le_trans hx hy hz hxy hyz
  | greatest => exact Double.le_trans hz hy hx hyz hxy

theorem leads_of_holds (hr : r ∈ w.relations) (hx : x.isNaN = false) (hy : y.isNaN = false)
    (h : r.holds x y = true) : w.Leads x y := by
  obtain ⟨rfl, rfl | rfl⟩ | ⟨rfl, rfl | rfl⟩ := eq_or_eq hr
  · exact Double.le_of_lt hx hy (of_decide_eq_true h)
  · exact (of_decide_eq_true h : x ≤ y)
  · exact Double.le_of_lt hy hx (of_decide_eq_true h)
  · exact (of_decide_eq_true h : y ≤ x)

theorem leads_of_not_holds (hr : r ∈ w.relations) (hx : x.isNaN = false) (hy : y.isNaN = false)
    (h : r.holds x y = false) : w.Leads y x := by
  obtain ⟨rfl, rfl | rfl⟩ | ⟨rfl, rfl | rfl⟩ := eq_or_eq hr
  · exact Double.le_of_not_lt hx hy (of_decide_eq_false h)
  · exact Double.le_of_not_le hx hy (of_decide_eq_false h)
  · exact Double.le_of_not_lt hy hx (of_decide_eq_false h)
  · exact Double.le_of_not_le hy hx (of_decide_eq_false h)

theorem holds_eq (hr : r ∈ w.relations) (hx : x.isNaN = false) (hy : y.isNaN = false)
    (hz : z.isNaN = false) (hxy : w.Leads x y) (hyx : w.Leads y x) :
    r.holds x z = r.holds y z := by
  have hkey : Double.key x.toModel.unpack = Double.key y.toModel.unpack := by
    cases w with
    | least => exact Double.key_eq hx hy hxy hyx
    | greatest => exact Double.key_eq hx hy hyx hxy
  obtain ⟨rfl, rfl | rfl⟩ | ⟨rfl, rfl | rfl⟩ := eq_or_eq hr
  · exact decide_eq_decide.mpr (by rw [Double.lt_iff_key hx hz, Double.lt_iff_key hy hz, hkey])
  · exact decide_eq_decide.mpr (by rw [Double.le_iff_key hx hz, Double.le_iff_key hy hz, hkey])
  · exact decide_eq_decide.mpr (by
      rw [gt_iff_lt, gt_iff_lt, Double.lt_iff_key hz hx, Double.lt_iff_key hz hy, hkey])
  · exact decide_eq_decide.mpr (by
      rw [ge_iff_le, ge_iff_le, Double.le_iff_key hz hx, Double.le_iff_key hz hy, hkey])

theorem value_eq (hr : r ∈ w.relations) (x y : Float) :
    r.value (some x) (some y) = some (if r.holds x y then x else y) := by
  obtain ⟨rfl, rfl | rfl⟩ | ⟨rfl, rfl | rfl⟩ := eq_or_eq hr <;> rfl

theorem truth_eq (hr : r ∈ w.relations) (x y : Float) :
    r.truth (some x) (some y) = some (if r.holds x y then 1.0 else 0.0) := by
  obtain ⟨rfl, rfl | rfl⟩ | ⟨rfl, rfl | rfl⟩ := eq_or_eq hr <;> rfl

-- ---------------------------------------------------------------------------
-- Rows
-- ---------------------------------------------------------------------------

theorem chooses_singleton (hx : x.isNaN = false) : w.Chooses [x] x :=
  ⟨List.mem_singleton_self x, by simpa using leads_refl hx⟩

theorem Chooses.concat (h : w.Chooses xs x) (hr : r ∈ w.relations)
    (hxs : ∀ y ∈ xs, y.isNaN = false) (hy : y.isNaN = false) :
    w.Chooses (xs ++ [y]) (if r.holds x y then x else y) := by
  have hx := hxs x h.mem
  cases hholds : r.holds x y with
  | true =>
    refine ⟨List.mem_append_left _ h.mem, ?_⟩
    simp only [List.forall_mem_append, List.forall_mem_singleton]
    exact ⟨h.leads, leads_of_holds hr hx hy hholds⟩
  | false =>
    have hyx := leads_of_not_holds hr hx hy hholds
    refine ⟨List.mem_append_right _ (List.mem_singleton_self y), ?_⟩
    simp only [List.forall_mem_append, List.forall_mem_singleton]
    exact ⟨fun z hz => hyx.trans hy hx (hxs z hz) (h.leads z hz), leads_refl hy⟩

theorem Chooses.holds_eq {m n : Float} (hm : w.Chooses xs m) (hn : w.Chooses xs n)
    (hr : r ∈ w.relations) (hxs : ∀ y ∈ xs, y.isNaN = false) (hz : z.isNaN = false) :
    r.holds m z = r.holds n z :=
  Extreme.holds_eq hr (hxs m hm.mem) (hxs n hn.mem) hz (hm.leads n hn.mem) (hn.leads m hm.mem)

theorem exists_valueFrom (first : Side)
    (hrelations : ∀ link ∈ links, link.1 ∈ w.relations)
    (hnumbers : ∀ y ∈ Sides.values ⟨first, links⟩, y.isNaN = false) :
    ∃ x, Sides.valueFrom (some first.value) links = some x ∧
      w.Chooses (Sides.values ⟨first, links⟩) x := by
  -- The last comparison is made with what was chosen before it, so sides are added at the end.
  induction links using List.reverseRecOn with
  | nil =>
    exact ⟨first.value, rfl, chooses_singleton (hnumbers _ List.mem_cons_self)⟩
  | append_singleton links link ih =>
    rw [Sides.values_concat] at hnumbers ⊢
    simp only [List.forall_mem_append, List.forall_mem_singleton] at hrelations hnumbers
    obtain ⟨x, hx, hchooses⟩ := ih hrelations.1 hnumbers.1
    refine ⟨_, ?_, hchooses.concat hrelations.2 hnumbers.1 hnumbers.2⟩
    rw [Sides.valueFrom_concat, hx, value_eq hrelations.2]

end Extreme

/-- What is read with relations is a chain. Of the sides of a row of inequalities in one direction,
none of them not-a-number, the row has the value of a least one, or of a greatest one if it goes
down. It is as true as its last relation is between the least, or the greatest, of the other sides
and the last one; which of several equal ones is taken makes no difference to that. -/
theorem inequalities_choose_a_side (vs : Values) (fs : FunctionTable) (w : Extreme) (first : Side)
    (links : List (Relation × Side)) (r : Relation) (last : Side) :
    let c : Sides := ⟨first, links ++ [(r, last)]⟩
    let earlier : Sides := ⟨first, links⟩
    (∃ l : Parser.Limits, l.Govern) ∧
    (∀ l o text e, parseRelationsWithin l o text = .ok e → e.IsChain) ∧
    ((∀ link ∈ c.links, link.1 ∈ w.relations) → (∀ x ∈ c.values, x.isNaN = false) →
      (∃ x, w.Chooses earlier.values x) ∧
      ∃ m, w.Chooses c.values m ∧ ∀ x, w.Chooses earlier.values x →
        c.ComeTo vs fs (some m) (some (if r.holds x last.value then 1.0 else 0.0))) := by
  intro c earlier
  refine ⟨Parser.exists_govern, fun _ _ _ _ => isChain_of_parseRelationsWithin,
    fun hrelations hnumbers => ?_⟩
  have hvalues : c.values = earlier.values ++ [last.value] := Sides.values_concat ..
  rw [hvalues] at hnumbers ⊢
  simp only [c, List.forall_mem_append, List.forall_mem_singleton] at hrelations hnumbers
  obtain ⟨hlinks, hr⟩ := hrelations
  obtain ⟨hearlier, hlast⟩ := hnumbers
  obtain ⟨x, hx, hchooses⟩ := Extreme.exists_valueFrom first hlinks hearlier
  refine ⟨⟨x, hchooses⟩, _, hchooses.concat hr hearlier hlast, fun y hy => ?_⟩
  have hmeans : c.ComeTo vs fs _ _ := Sides.comeTo rfl
  rw [hx, Extreme.value_eq hr, Extreme.truth_eq hr] at hmeans
  rwa [hy.holds_eq hchooses hr hearlier hlast]

/-- The last two sides are equal, and less than the first one. -/
theorem inequalities_choose_a_side_equal :
    let vs : Values := .x (.whole 1)
    let c : Sides :=
      ⟨⟨Expr.whole 2, 2.0⟩, [(.lessEqual, ⟨.named "x", 1.0⟩)] ++ [(.less, ⟨Expr.whole 1, 1.0⟩)]⟩
    c.tree.value vs ∅ = .ok (some 1.0) ∧ c.tree.truth vs ∅ = .ok (some 0.0) := by
  intro vs c
  have hnumbers : ∀ x ∈ c.values, x.isNaN = false := by decide +kernel
  have hrelations : ∀ link ∈ c.links, link.1 ∈ Extreme.least.relations := by
    simp [c, Extreme.relations]
  obtain ⟨-, -, hchosen⟩ := inequalities_choose_a_side vs ∅ .least ⟨Expr.whole 2, 2.0⟩
    [(.lessEqual, ⟨.named "x", 1.0⟩)] .less ⟨Expr.whole 1, 1.0⟩
  obtain ⟨-, m, hm, hmeans⟩ := hchosen hrelations hnumbers
  have hx : Extreme.least.Chooses [2.0, 1.0] 1.0 :=
    ⟨List.mem_cons_of_mem _ List.mem_cons_self, by decide +kernel⟩
  obtain rfl : m = 1.0 := by
    have hmem : m ∈ [2.0, 1.0, 1.0] := hm.mem
    have hle : m ≤ 1.0 := hm.leads 1.0 (List.mem_cons_of_mem _ List.mem_cons_self)
    simp only [List.mem_cons, List.not_mem_nil, or_false] at hmem
    rcases hmem with rfl | rfl | rfl
    · exact absurd hle (by decide +kernel)
    · rfl
    · rfl
  have hsides (k : Nat) (hk : 2 ≤ k) : ∀ s ∈ c.all, s.HasValue vs ∅ k := by
    obtain ⟨k, rfl⟩ := Nat.exists_eq_add_of_le' hk
    simp only [c, Sides.all, List.singleton_append, List.map_cons, List.map_nil,
      List.forall_mem_cons]
    exact ⟨Side.hasValue_of_number rfl rfl, Side.hasValue_of_number rfl rfl,
      Side.hasValue_of_number rfl rfl, List.forall_mem_nil _⟩
  have hc := (hmeans 1.0 hx).enough 2 hsides Expr.levels (by decide)
  rw [show Relation.less.holds 1.0 1.0 = false by decide +kernel] at hc
  exact hc

theorem long_inequality_is_too_deep :
    let c : Sides := .repeated .lessEqual 3000
    let vs : Values := .x (.whole 1)
    parseRelations {} (.ofList (Chain.repeated .lessEqual 3000).source) = .ok c.tree ∧
      (∀ s ∈ c.all, s.tree.value vs ∅ = .ok (some s.value) ∧ s.value.isNaN = false) ∧
      c.tree.value vs ∅ = .error .tooDeep ∧ c.tree.truth vs ∅ = .error .tooDeep := by
  intro c vs
  refine ⟨parseRelations_repeated .lessEqual 3000, ?_, ?_, ?_⟩
  · intro s hs
    obtain rfl := Sides.eq_of_mem_repeated hs
    exact ⟨rfl, by decide +kernel⟩
  · exact Sides.value_repeated .lessEqual (by decide) vs ∅
  · exact Sides.truth_repeated .lessEqual (by decide) vs ∅

end Formula
