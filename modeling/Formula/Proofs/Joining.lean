import Formula.Proofs.Inside
import Formula.Proofs.Readable

/-!
# Pieces between commas

A balanced text is made of balanced pieces with commas between them in one way only, when all commas
of the pieces stand inside brackets. Splitting gives these pieces, so it undoes joining; the blank
ones are then left out.
-/

namespace Formula.Bracket

variable {text before after : List Char}

-- ---------------------------------------------------------------------------
-- Commas and depth
-- ---------------------------------------------------------------------------

/-- A balanced text never closes more brackets than it has opened, and where no comma may stand
outside of them some are open at every comma. -/
theorem Balanced.height_before (h : Balanced commas (before ++ c :: after)) :
    0 ≤ height before ∧ (c = ',' → commas = false → 0 < height before) := by
  generalize htext : before ++ c :: after = text at h
  induction h generalizing before after with
  | nil => simp at htext
  | plain hd hcomma _ ih =>
    rcases List.append_eq_cons_iff.mp htext with ⟨rfl, hc⟩ | ⟨before, rfl, hrest⟩
    · refine ⟨Int.le_refl 0, fun hc' hcommas => ?_⟩
      rw [hcomma ((List.cons.inj hc).1.symm.trans hc')] at hcommas
      cases hcommas
    · rw [height_cons, hd, Mark.rise, zero_add]
      exact ih hrest.symm
  | @group inside _ rest b hi _ ihi ih =>
    have hopener : b.opener ≠ ',' := by cases b <;> decide
    have hcloser : b.closer ≠ ',' := by cases b <;> decide
    rcases group_split htext.symm with ⟨rfl, rfl, -⟩ | ⟨mid, later, rfl, rfl, -⟩ |
      ⟨rfl, rfl, -⟩ | ⟨mid, rfl, rfl⟩
    · exact ⟨Int.le_refl 0, fun hc => absurd hc hopener⟩
    · have hmid := (ihi rfl).1
      rw [height_cons, mark_opener, Mark.rise]
      omega
    · rw [height_cons, mark_opener, Mark.rise, hi.height_eq_zero]
      exact ⟨by decide, fun hc => absurd hc hcloser⟩
    · have hgroup : height (b.opener :: (inside ++ b.closer :: mid)) = height mid := by
        rw [height_cons, height_append, height_cons, hi.height_eq_zero, mark_opener, mark_closer,
          Mark.rise, Mark.rise]
        omega
      rw [hgroup]
      exact ih rfl

-- ---------------------------------------------------------------------------
-- Pieces
-- ---------------------------------------------------------------------------

structure IsPiece (text : List Char) : Prop where
  balanced : Balanced true text
  comma_inside : ∀ before after, text = before ++ ',' :: after → 0 < height before

theorem isPiece_iff : IsPiece text ↔ Balanced false text := by
  constructor
  · intro h
    refine h.balanced.of_no_comma fun before after htext hzero => ?_
    have hpos := h.comma_inside before after htext
    omega
  · intro h
    refine ⟨h.weaken, ?_⟩
    rintro before after rfl
    exact h.height_before.2 rfl rfl

theorem isPiece_of_mem_pieces (h : Balanced true text) (hp : piece ∈ pieces text) :
    IsPiece piece :=
  isPiece_iff.mpr (balanced_of_mem_piecesFrom h .nil hp)

/-- The text is made of the pieces, with commas between them. The empty text is one piece. -/
structure MadeOf (text : List Char) (ps : List (List Char)) : Prop where
  nonempty : ps ≠ []
  pieces : ∀ p ∈ ps, IsPiece p
  joined : [','].intercalate ps = text

theorem madeOf_iff (h : Balanced true text) : MadeOf text ps ↔ ps = pieces text := by
  constructor
  · rintro ⟨hne, hps, rfl⟩
    exact (pieces_intercalate hne fun p hp => isPiece_iff.mp (hps p hp)).symm
  · rintro rfl
    exact ⟨piecesFrom_ne_nil _ _ _, fun p => isPiece_of_mem_pieces h, intercalate_pieces text⟩

/-- Splitting a joined text gives back the texts that were joined, if each is a piece that is not
blank. A balanced text is made of pieces in one way only, and splitting gives those that are not
blank. -/
theorem splitting_undoes_joining :
    (∀ texts : List (List Char), (∀ text ∈ texts, IsPiece text ∧ Text.isBlankText text = false) →
      arguments ([','].intercalate texts) = texts) ∧
    ∀ text, Balanced true text → ∃ ps, MadeOf text ps ∧ (∀ ps', MadeOf text ps' → ps' = ps) ∧
      arguments text = ps.filter fun p => !Text.isBlankText p := by
  refine ⟨fun texts h => arguments_intercalate fun text ht => ?_, fun text h => ?_⟩
  · exact ⟨isPiece_iff.mp (h text ht).1, (h text ht).2⟩
  · exact ⟨pieces text, (madeOf_iff h).mpr rfl, fun ps' => (madeOf_iff h).mp, rfl⟩

/-- Three texts with commas of their own, and a text with blank pieces at both ends. -/
theorem splitting_undoes_joining_nested :
    let texts := ["g(a,[b,c])".toList, " x".toList, "(,)[,]".toList]
    let text := " ,a([b,c]),,[d]-e,".toList
    ((∀ text ∈ texts, IsPiece text ∧ Text.isBlankText text = false) ∧
        arguments "g(a,[b,c]), x,(,)[,]".toList = texts) ∧
      Balanced true text ∧ arguments text = ["a([b,c])".toList, "[d]-e".toList] := by
  intro texts text
  have htexts : ∀ text ∈ texts, IsPiece text ∧ Text.isBlankText text = false := by
    intro text ht
    have hchecked : (segments text).isOk = true ∧ text ∈ pieces text ∧
        Text.isBlankText text = false := by
      revert text
      decide +kernel
    have hbalanced := segments_isOk_iff.mp (exists_of_isOk hchecked.1)
    exact ⟨isPiece_of_mem_pieces hbalanced hchecked.2.1, hchecked.2.2⟩
  have hbalanced : Balanced true text :=
    segments_isOk_iff.mp (exists_of_isOk (by decide +kernel))
  obtain ⟨hjoined, hsplit⟩ := splitting_undoes_joining
  obtain ⟨ps, -, hunique, harguments⟩ := hsplit text hbalanced
  have hps : MadeOf text [" ".toList, "a([b,c])".toList, [], "[d]-e".toList, []] :=
    (madeOf_iff hbalanced).mpr (by decide +kernel)
  refine ⟨⟨htexts, hjoined texts htexts⟩, hbalanced, ?_⟩
  rw [harguments, ← hunique _ hps]
  decide +kernel

end Formula.Bracket
