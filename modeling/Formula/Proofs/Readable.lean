import Formula.Proofs.Blanks
import Formula.Proofs.Recognition

/-!
# What a text with a tree looks like

The brackets of a text that is read pair up, no comma stands outside of them, and there
is more than blanks. So the text can stand as an argument. Its tree can be an operand.
-/

namespace Formula

variable {o : Options}

namespace Bracket

theorem Balanced.of_no_comma (h : Balanced true text)
    (hcomma : ∀ before after, text = before ++ ',' :: after → height before ≠ 0) :
    Balanced false text := by
  generalize hcommas : true = commas at h
  induction h with
  | nil => exact .nil
  | @plain c _ rest hc _ _ ih =>
    have hne : c ≠ ',' := by
      rintro rfl
      exact hcomma [] rest rfl rfl
    refine .plain hc (fun h => absurd h hne) (ih (fun before after hrest => ?_) hcommas)
    have hheight := hcomma (c :: before) after (by rw [hrest, List.cons_append])
    rwa [height_cons, hc, Mark.rise, zero_add] at hheight
  | @group inside _ rest b hi _ _ ih =>
    refine .group b hi (ih (fun before after hrest => ?_) hcommas)
    have hgroup : Balanced true (b.opener :: (inside ++ [b.closer])) := .group b hi .nil
    have hheight := hcomma (b.opener :: (inside ++ [b.closer]) ++ before) after (by simp [hrest])
    rwa [height_append, hgroup.height_eq_zero, zero_add] at hheight

end Bracket

-- ---------------------------------------------------------------------------
-- Parts with a tree
-- ---------------------------------------------------------------------------

namespace Part

theorem Sum.ne_nil (h : Sum o ps e) : ps ≠ [] := by
  have hP : Kept o fun ps _ => ps ≠ [] := by
    constructor
    case beside => exact fun hl _ => List.append_ne_nil_of_left_ne_nil hl _
    all_goals intros; simp
  exact hP.sum h

theorem isNumeric_of_reduce (h : reduce o ps = .ok e) : e.isNumeric = true := by
  obtain ⟨out, -, hsum⟩ := reduce_eq_ok.mp h
  exact hsum.isNumeric

theorem ne_nil_of_reduce (h : reduce o ps = .ok e) : ps ≠ [] := by
  rintro rfl
  obtain ⟨out, hout, hsum⟩ := reduce_eq_ok.mp h
  cases hout
  exact hsum.ne_nil rfl

end Part

-- ---------------------------------------------------------------------------
-- Texts with a tree
-- ---------------------------------------------------------------------------

namespace Parser

variable {p : Parser}

theorem balanced_of_readAt (h : p.readAt shown room depth text = .ok e) :
    Bracket.Balanced true text := by
  refine readAt_induction (P := fun text _ => Bracket.Balanced true text) ?_ h
  rintro text e ⟨hsegs, -, -⟩
  exact Bracket.balanced_of_segments hsegs

theorem isNumeric_of_readAt (h : p.readAt shown room depth text = .ok e) : e.isNumeric = true := by
  refine readAt_induction (P := fun _ e => e.isNumeric = true) ?_ h
  rintro text e ⟨-, -, hreduce⟩
  exact Part.isNumeric_of_reduce hreduce

theorem isBlankText_of_readAt (h : p.readAt shown room depth text = .ok e) :
    Text.isBlankText text = false := by
  cases hb : Text.isBlankText text with
  | false => rfl
  | true =>
    obtain ⟨segs, hsegs⟩ := Bracket.segments_isOk_iff.mpr (balanced_of_readAt h)
    rw [← readAt_squeeze hsegs, Text.squeeze_eq_nil.mpr hb] at h
    have hne : [] ≠ ([] : List Char) := by
      refine readAt_induction (P := fun text _ => text ≠ []) ?_ h
      rintro text e ⟨hsegs, hread, hreduce⟩ rfl
      cases hsegs
      cases hread
      exact Part.ne_nil_of_reduce hreduce rfl
    exact absurd rfl hne

end Parser

theorem whole_of_readAt (declared : Declared o)
    (h : (Parser.mk o o.vocabulary).readAt shown room depth text = .ok e) : Bracket.Whole text := by
  refine ⟨(Parser.balanced_of_readAt h).of_no_comma fun before after htext hheight => ?_,
    Parser.isBlankText_of_readAt h⟩
  -- A comma at depth zero would have to stand in a token, and no token has one.
  have hnone : Text.isBlank ',' = false ∧ Bracket.isPunctuation 0 ',' = false ∧
      Name.isWordChar ',' = false ∧ Text.isDigit ',' = false ∧
      Token.isOperator ',' = false := by decide
  have hchar := char_of_readAt declared h htext
  rw [hheight] at hchar
  simp [hnone] at hchar

end Formula
