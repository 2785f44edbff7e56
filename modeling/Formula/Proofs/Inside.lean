import Formula.Proofs.Exchange

/-!
# What stands inside brackets

A text can be cut at its brackets exactly when they pair up by kind. The inside of
every group is then such a text again, and so is each of its arguments, which has no
comma outside of its own brackets and is nested less deep than the whole.
-/

namespace Formula.Bracket

-- ---------------------------------------------------------------------------
-- Texts that can be cut
-- ---------------------------------------------------------------------------

theorem balanced_of_segments (h : segments text = .ok segs) : Balanced true text := by
  -- With nothing exchanged both sides are the text itself.
  have hcloses : Closes [] [] [] text text := (segments_eq_ok.mp h).closes
  cases hcloses with
  | nil h => exact h.left .nil

def Segment.Proper : Segment → Prop
  | .plain _ text => ∀ c ∈ text, mark c = .plain
  | .group _ _ inside => Balanced true inside

theorem Segment.Proper.height_source {seg : Segment} (h : seg.Proper) : height seg.source = 0 := by
  cases seg with
  | plain n text => exact height_of_plain h
  | group b n inside =>
    have hgroup : Balanced true (b.opener :: (inside ++ [b.closer])) := .group b h .nil
    exact hgroup.height_eq_zero

theorem Segment.Exchange.proper {seg seg' : Segment} (h : seg.Exchange [] [] seg') :
    seg.Proper := by
  cases h with
  | plain h => exact h
  | group h => exact h.left .nil
  | exchanged => exact .nil

theorem Balanced.exists_segments (h : Balanced true text) :
    ∃ segs, segments text = .ok segs ∧ ∀ seg ∈ segs, seg.Proper := by
  have hex : Exchange [] [] text text := .refl h
  obtain ⟨segs, segs', hsegs, -, hrel⟩ := hex.segments .nil .nil
  refine ⟨segs, hsegs, fun seg hseg => ?_⟩
  obtain ⟨seg', -, hrel⟩ := exists_of_mem_left hrel hseg
  exact hrel.proper

theorem segments_isOk_iff : (∃ segs, segments text = .ok segs) ↔ Balanced true text := by
  constructor
  · rintro ⟨segs, h⟩
    exact balanced_of_segments h
  · intro h
    obtain ⟨segs, hsegs, -⟩ := h.exists_segments
    exact ⟨segs, hsegs⟩

theorem proper_of_mem_segments (h : segments text = .ok segs) (hseg : seg ∈ segs) :
    seg.Proper := by
  obtain ⟨segs', hsegs, hproper⟩ := (balanced_of_segments h).exists_segments
  obtain rfl := Except.ok.inj (h.symm.trans hsegs)
  exact hproper seg hseg

-- ---------------------------------------------------------------------------
-- Arguments
-- ---------------------------------------------------------------------------

theorem piecesFrom_ne_nil (depth : Int) (held text : List Char) :
    piecesFrom depth held text ≠ [] := by
  fun_induction piecesFrom depth held text with
  | case1 => exact List.cons_ne_nil _ _
  | case2 => exact List.cons_ne_nil _ _
  | case3 _ _ _ _ _ ih => exact ih

theorem intercalate_piecesFrom (depth : Int) (held text : List Char) :
    [','].intercalate (piecesFrom depth held text) = held.reverse ++ text := by
  fun_induction piecesFrom depth held text with
  | case1 => simp
  | case2 depth held c rest hc ih =>
    obtain ⟨rfl, -⟩ := hc
    rw [List.intercalate_cons_of_ne_nil (piecesFrom_ne_nil _ _ _), ih]
    simp
  | case3 depth held c rest _ ih => rw [ih, List.reverse_cons, List.append_assoc]; rfl

theorem intercalate_pieces (text : List Char) : [','].intercalate (pieces text) = text :=
  intercalate_piecesFrom 0 [] text

theorem balanced_of_mem_piecesFrom (h : Balanced true text) (hheld : Balanced false held.reverse)
    (hp : piece ∈ piecesFrom 0 held text) : Balanced false piece := by
  generalize hcommas : true = commas at h
  induction h generalizing held with
  | nil => rwa [List.mem_singleton.mp hp]
  | @plain c _ rest hc _ _ ih =>
    rw [piecesFrom] at hp
    split at hp
    · rcases List.mem_cons.mp hp with rfl | hp
      · exact hheld
      · exact ih .nil hp hcommas
    · rename_i hcomma
      rw [hc] at hp
      refine ih ?_ hp hcommas
      rw [List.reverse_cons]
      exact hheld.append (.plain hc (fun h => absurd ⟨h, rfl⟩ hcomma) .nil)
  | @group inside _ rest b hi _ _ ih =>
    have hgroup : Balanced false (b.opener :: (inside ++ [b.closer])) := .group b hi .nil
    rw [piecesFrom_group b hi] at hp
    refine ih ?_ hp hcommas
    rw [List.reverse_append, List.reverse_reverse]
    exact hheld.append hgroup

theorem whole_of_mem_arguments (h : Balanced true text) (ha : argument ∈ arguments text) :
    Whole argument := by
  obtain ⟨hp, hb⟩ := List.mem_filter.mp ha
  exact ⟨balanced_of_mem_piecesFrom h .nil hp, by simpa using hb⟩

theorem nesting_argument_le (h : Balanced true text) (ha : argument ∈ arguments text) :
    nesting argument ≤ nesting text := by
  have hpieces : ∀ piece ∈ pieces text, Balanced true piece := fun piece hp =>
    (balanced_of_mem_piecesFrom h .nil hp).weaken
  have hle := nesting_le_intercalate hpieces (List.mem_of_mem_filter ha)
  rwa [intercalate_pieces] at hle

theorem height_flatMap_source {segs : List Segment} (h : ∀ seg ∈ segs, seg.Proper) :
    height (segs.flatMap Segment.source) = 0 := by
  induction segs with
  | nil => rfl
  | cons seg segs ih =>
    rw [List.forall_mem_cons] at h
    rw [List.flatMap_cons, height_append, h.1.height_source, ih h.2]
    rfl

theorem nesting_group_inside_lt (h : segments text = .ok segs) (hg : .group b n inside ∈ segs) :
    nesting inside < nesting text := by
  obtain ⟨before, after, rfl⟩ := List.append_of_mem hg
  have hbefore : height (before.flatMap Segment.source) = 0 :=
    height_flatMap_source fun seg hseg => proper_of_mem_segments h (List.mem_append_left _ hseg)
  rw [← flatMap_source_segments h, List.flatMap_append, List.flatMap_cons, Segment.source,
    List.cons_append, List.append_assoc]
  exact nesting_group_lt b hbefore inside _

-- ---------------------------------------------------------------------------
-- All levels
-- ---------------------------------------------------------------------------

/-- An argument of a group of a text, or of a group of such an argument, and so on. -/
inductive Within : List Char → List Char → Prop
  | argument : segments text = .ok segs → .group b n inside ∈ segs →
      argument ∈ arguments inside → Within text argument
  | deeper : Within text argument → Within argument piece → Within text piece

/-- What stands within a text is read as it stands: it is balanced, not blank, and has no
comma outside of its own brackets. -/
theorem Within.whole (h : Within text piece) : Whole piece := by
  induction h with
  | argument hs hg ha => exact whole_of_mem_arguments (proper_of_mem_segments hs hg) ha
  | deeper _ _ _ ih => exact ih

theorem Within.nesting_lt (h : Within text piece) : nesting piece < nesting text := by
  induction h with
  | argument hs hg ha =>
    exact Nat.lt_of_le_of_lt (nesting_argument_le (proper_of_mem_segments hs hg) ha)
      (nesting_group_inside_lt hs hg)
  | deeper _ _ ihl ihr => exact Nat.lt_trans ihr ihl

end Formula.Bracket
