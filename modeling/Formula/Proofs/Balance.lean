import Formula.Proofs.Spans

/-!
# Balanced texts

A text whose brackets pair up by kind goes through the cutting of a text in one
piece wherever it stands inside brackets, and so does an argument without commas
of its own through the splitting at commas.
-/

namespace Formula.Bracket

/-- Brackets pair up by kind. `commas` says whether commas may stand outside of them. -/
inductive Balanced : Bool → List Char → Prop
  | nil : Balanced commas []
  | plain : mark c = .plain → (c = ',' → commas = true) → Balanced commas rest →
      Balanced commas (c :: rest)
  | group (b : Bracket) : Balanced true inside → Balanced commas rest →
      Balanced commas (b.opener :: (inside ++ b.closer :: rest))

namespace Balanced

theorem append (h : Balanced commas a) (h' : Balanced commas rest) :
    Balanced commas (a ++ rest) := by
  induction h with
  | nil => exact h'
  | plain hc hcomma _ ih => exact .plain hc hcomma (ih h')
  | group b hi _ _ ih =>
    rw [List.cons_append, List.append_assoc, List.cons_append]
    exact .group b hi (ih h')

theorem of_plain (h : ∀ c ∈ text, mark c = .plain ∧ c ≠ ',') : Balanced commas text := by
  induction text with
  | nil => exact .nil
  | cons c text ih =>
    rw [List.forall_mem_cons] at h
    exact .plain h.1.1 (fun hc => absurd hc h.1.2) (ih h.2)

theorem weaken (h : Balanced commas text) : Balanced true text := by
  induction h with
  | nil => exact .nil
  | plain hc _ _ ih => exact .plain hc (fun _ => rfl) ih
  | group b hi _ _ ih => exact .group b hi ih

theorem intercalate (h : ∀ text ∈ texts, Balanced true text) :
    Balanced true ([','].intercalate texts) := by
  induction texts with
  | nil => exact .nil
  | cons text texts ih =>
    rw [List.forall_mem_cons] at h
    cases texts with
    | nil => simpa [List.intercalate] using h.1
    | cons text' texts =>
      rw [List.intercalate_cons_cons]
      exact (h.1.append (.plain rfl (fun _ => rfl) .nil)).append (ih h.2)

end Balanced

/-- Where a character stands in a text that begins with a group: it opens the group, is inside,
closes it, or comes later. -/
theorem group_split {b : Bracket}
    (h : b.opener :: (inside ++ b.closer :: rest) = before ++ c :: after) :
    (before = [] ∧ c = b.opener ∧ after = inside ++ b.closer :: rest) ∨
      (∃ mid later, before = b.opener :: mid ∧ inside = mid ++ c :: later ∧
        after = later ++ b.closer :: rest) ∨
      (before = b.opener :: inside ∧ c = b.closer ∧ after = rest) ∨
      ∃ mid, before = b.opener :: (inside ++ b.closer :: mid) ∧ rest = mid ++ c :: after := by
  rcases List.cons_eq_append_iff.mp h with ⟨rfl, hc⟩ | ⟨mid, rfl, hrest⟩
  · exact .inl ⟨rfl, List.cons.inj hc⟩
  rcases List.append_eq_append_iff.mp hrest with ⟨later, rfl, hlater⟩ | ⟨later, rfl, hlater⟩
  · rcases List.cons_eq_append_iff.mp hlater with ⟨rfl, hc⟩ | ⟨later, rfl, rfl⟩
    · exact .inr (.inr (.inl ⟨by rw [List.append_nil], List.cons.inj hc⟩))
    · exact .inr (.inr (.inr ⟨later, rfl, rfl⟩))
  · rcases List.cons_eq_append_iff.mp hlater with ⟨rfl, hc⟩ | ⟨later, rfl, rfl⟩
    · obtain ⟨rfl, rfl⟩ := List.cons.inj hc
      exact .inr (.inr (.inl ⟨by rw [List.append_nil], rfl, rfl⟩))
    · exact .inr (.inl ⟨mid, later, rfl, rfl, rfl⟩)

-- ---------------------------------------------------------------------------
-- Cutting
-- ---------------------------------------------------------------------------

theorem Cut.plain_text (h : Cut (n + text.length) opened (text.reverse ++ held) rest segs)
    (ht : ∀ c ∈ text, mark c = .plain) : Cut n opened held (text ++ rest) segs := by
  induction text generalizing n held with
  | nil => exact h
  | cons c text ih =>
    rw [List.forall_mem_cons] at ht
    refine .plain ht.1 (ih ?_ ht.2)
    rwa [List.length_cons, List.reverse_cons, List.append_assoc, Nat.add_comm text.length,
      ← Nat.add_assoc] at h

theorem segmentsFrom_balanced (hb : Balanced commas text) (ho : opened ≠ []) (n : Nat)
    (held rest : List Char) : segmentsFrom n opened held (text ++ rest) =
      segmentsFrom (n + text.length) opened (text.reverse ++ held) rest := by
  induction hb generalizing n opened held rest with
  | nil => rfl
  | @plain c _ text hc _ _ ih =>
    have hlength : n + 1 + text.length = n + (c :: text).length := by
      rw [List.length_cons]
      omega
    rw [List.cons_append, segmentsFrom_plain hc, ih ho, hlength]
    simp
  | @group inside _ text b _ _ ihi ih =>
    have hinner : (b, n) :: opened ≠ [] := List.cons_ne_nil _ _
    have hlength : n + 1 + inside.length + 1 + text.length =
        n + (b.opener :: (inside ++ b.closer :: text)).length := by
      simp only [List.length_cons, List.length_append]
      omega
    rw [List.cons_append, List.append_assoc, List.cons_append, segmentsFrom_nests ho, ihi hinner,
      segmentsFrom_leaves ho, ih ho, hlength]
    simp

theorem Cut.balanced (hb : Balanced commas text) (ho : opened ≠ [])
    (h : Cut (n + text.length) opened (text.reverse ++ held) rest segs) :
    Cut n opened held (text ++ rest) segs := by
  refine cut_of_segmentsFrom ?_
  rw [segmentsFrom_balanced hb ho]
  exact h.segmentsFrom_eq

theorem Cut.group_text (hb : Balanced commas inside)
    (h : Cut (n + 1 + inside.length + 1) [] [] rest segs) :
    Cut n [] held (b.opener :: (inside ++ b.closer :: rest))
      (plainBefore n held ++ .group b n inside :: segs) := by
  have hends : Cut (n + 1 + inside.length) [(b, n)] inside.reverse (b.closer :: rest)
      (.group b n inside.reverse.reverse :: segs) := .ends h
  rw [List.reverse_reverse, ← List.append_nil inside.reverse] at hends
  exact .opens (Cut.balanced hb nofun hends)

theorem plainBefore_reverse (hne : text ≠ []) (n : Nat) :
    plainBefore (n + text.length) text.reverse = [.plain n text] := by
  cases text with
  | nil => exact absurd rfl hne
  | cons c text => simp [plainBefore]

theorem segments_plain (hne : text ≠ []) (ht : ∀ c ∈ text, mark c = .plain) :
    segments text = .ok [.plain 0 text] := by
  have hdone : Cut (0 + text.length) [] (text.reverse ++ []) []
      (plainBefore (0 + text.length) (text.reverse ++ [])) := .done
  have hcut := Cut.plain_text hdone ht
  rw [List.append_nil, List.append_nil, plainBefore_reverse hne] at hcut
  exact segments_eq_ok.mpr hcut

theorem segments_enclosed (b : Bracket) (hb : Balanced commas inside) :
    segments (b.opener :: (inside ++ [b.closer])) = .ok [.group b 0 inside] :=
  segments_eq_ok.mpr (Cut.group_text hb .done)

theorem segments_prefixed (b : Bracket) (hne : text ≠ []) (ht : ∀ c ∈ text, mark c = .plain)
    (hb : Balanced commas inside) :
    segments (text ++ b.opener :: (inside ++ [b.closer])) =
      .ok [.plain 0 text, .group b text.length inside] := by
  have hgroup : Cut (0 + text.length) [] (text.reverse ++ []) (b.opener :: (inside ++ [b.closer]))
      (plainBefore _ _ ++ [.group b _ inside]) := Cut.group_text hb .done
  have hcut := Cut.plain_text hgroup ht
  rw [List.append_nil, plainBefore_reverse hne, Nat.zero_add] at hcut
  exact segments_eq_ok.mpr hcut

theorem segments_between (b b' : Bracket) (hc : mark c = .plain) (hl : Balanced commas l)
    (hr : Balanced commas' r) :
    ∃ n n', segments (b.opener :: (l ++ b.closer :: c :: b'.opener :: (r ++ [b'.closer]))) =
      .ok [.group b 0 l, .plain n [c], .group b' n' r] := by
  have hr : Cut (0 + 1 + l.length + 1 + 1) [] [c] (b'.opener :: (r ++ [b'.closer]))
      ([.plain (0 + 1 + l.length + 1) [c]] ++ [.group b' _ r]) := Cut.group_text hr .done
  exact ⟨_, _, segments_eq_ok.mpr (Cut.group_text hl (.plain hc hr))⟩

-- ---------------------------------------------------------------------------
-- Splitting at commas
-- ---------------------------------------------------------------------------

theorem piecesFrom_balanced (hb : Balanced commas text) (hd : 0 ≤ depth)
    (hcommas : depth = 0 → commas = false) (held rest : List Char) :
    piecesFrom depth held (text ++ rest) = piecesFrom depth (text.reverse ++ held) rest := by
  induction hb generalizing depth held rest with
  | nil => rfl
  | @plain c commas text hc hcomma _ ih =>
    have hn : ¬(c = ',' ∧ depth = 0) := by
      rintro ⟨h, h0⟩
      rw [hcommas h0] at hcomma
      cases hcomma h
    rw [List.cons_append, piecesFrom, if_neg hn, hc]
    simp [Mark.rise, ih hd hcommas]
  | @group inside commas text b _ _ ihi ih =>
    have hopen : ¬(b.opener = ',' ∧ depth = 0) := by cases b <;> simp [opener]
    have hclose : ¬(b.closer = ',' ∧ depth + 1 = 0) := by omega
    rw [List.cons_append, List.append_assoc, List.cons_append, piecesFrom, if_neg hopen,
      mark_opener, Mark.rise, ihi (by omega) (by omega), piecesFrom, if_neg hclose, mark_closer,
      Mark.rise, Int.add_neg_cancel_right, ih hd hcommas]
    simp

theorem piecesFrom_group (b : Bracket) (hi : Balanced true inside) (held rest : List Char) :
    piecesFrom 0 held (b.opener :: (inside ++ b.closer :: rest)) =
      piecesFrom 0 ((b.opener :: (inside ++ [b.closer])).reverse ++ held) rest := by
  have hgroup : Balanced false (b.opener :: (inside ++ [b.closer])) := .group b hi .nil
  have hsplit := piecesFrom_balanced hgroup (Int.le_refl 0) (fun _ => rfl) held rest
  rwa [List.cons_append, List.append_assoc, List.singleton_append] at hsplit

theorem pieces_intercalate (hne : texts ≠ []) (h : ∀ text ∈ texts, Balanced false text) :
    pieces ([','].intercalate texts) = texts := by
  induction texts with
  | nil => exact absurd rfl hne
  | cons text texts ih =>
    rw [List.forall_mem_cons] at h
    cases texts with
    | nil =>
      rw [List.intercalate_singleton, pieces, ← List.append_nil text,
        piecesFrom_balanced h.1 (Int.le_refl 0) fun _ => rfl]
      simp [piecesFrom]
    | cons text' texts =>
      rw [List.intercalate_cons_cons, List.append_assoc, pieces,
        piecesFrom_balanced h.1 (Int.le_refl 0) fun _ => rfl]
      have hrest := ih nofun h.2
      rw [pieces] at hrest
      simp [piecesFrom, hrest]

/-- A text that the splitting leaves as it stands. -/
def Whole (text : List Char) : Prop := Balanced false text ∧ Text.isBlankText text = false

theorem Whole.enclosed (b : Bracket) (h : Whole text) : Whole (b.opener :: (text ++ [b.closer])) :=
  ⟨.group b h.1.weaken .nil, by simp [Text.isBlankText, isBlank_opener]⟩

theorem arguments_intercalate (h : ∀ text ∈ texts, Whole text) :
    arguments ([','].intercalate texts) = texts := by
  rw [arguments]
  cases texts with
  | nil => rfl
  | cons text texts =>
    rw [pieces_intercalate (List.cons_ne_nil text texts) fun text ht => (h text ht).1]
    exact List.filter_eq_self.mpr fun text ht => by simp [(h text ht).2]

theorem arguments_whole (h : Whole text) : arguments text = [text] := by
  have hsingle := arguments_intercalate (List.forall_mem_singleton.mpr h)
  rwa [List.intercalate_singleton] at hsingle

-- ---------------------------------------------------------------------------
-- Nesting
-- ---------------------------------------------------------------------------

def peakFrom (depth : Int) : List Char → Int
  | [] => depth
  | c :: rest => max depth (peakFrom (depth + (mark c).rise) rest)

/-- How many brackets a text has open at most. -/
def nesting (text : List Char) : Nat := (peakFrom 0 text).toNat

theorem le_peakFrom (depth : Int) (text : List Char) : depth ≤ peakFrom depth text := by
  cases text with
  | nil => exact Int.le_refl _
  | cons c rest => exact Int.le_max_left ..

theorem peakFrom_append (depth : Int) (a b : List Char) :
    peakFrom depth (a ++ b) = max (peakFrom depth a) (peakFrom (depth + height a) b) := by
  induction a generalizing depth with
  | nil =>
    have := le_peakFrom depth b
    simp only [List.nil_append, peakFrom, height, add_zero]
    omega
  | cons c a ih =>
    simp only [List.cons_append, peakFrom, ih, height_cons, add_assoc]
    omega

theorem peakFrom_add (depth n : Int) (text : List Char) :
    peakFrom (n + depth) text = n + peakFrom depth text := by
  induction text generalizing depth with
  | nil => rfl
  | cons c text ih =>
    have := ih (depth + (mark c).rise)
    rw [← add_assoc] at this
    simp only [peakFrom, this]
    omega

/-- A text that stands at some depth takes part in the nesting of the whole. -/
theorem add_nesting_le {n : Nat} (h : height before = n) (text after : List Char) :
    n + nesting text ≤ nesting (before ++ (text ++ after)) := by
  have hpeak : peakFrom n text ≤ peakFrom 0 (before ++ (text ++ after)) := by
    rw [peakFrom_append, peakFrom_append, h, zero_add]
    omega
  have hzero := le_peakFrom 0 text
  rw [← add_zero (n : Int), peakFrom_add] at hpeak
  unfold nesting
  omega

theorem Balanced.height_eq_zero (h : Balanced commas text) : height text = 0 := by
  induction h with
  | nil => rfl
  | plain hc _ _ ih => rw [height_cons, ih, hc]; rfl
  | group b _ _ ihi ih =>
    rw [height_cons, height_append, height_cons, ihi, ih, mark_opener, mark_closer]
    rfl

theorem height_of_plain (h : ∀ c ∈ text, mark c = .plain) : height text = 0 := by
  induction text with
  | nil => rfl
  | cons c text ih =>
    rw [List.forall_mem_cons] at h
    rw [height_cons, h.1, ih h.2]
    rfl

theorem nesting_of_plain (h : ∀ c ∈ text, mark c = .plain) : nesting text = 0 := by
  have hpeak : peakFrom 0 text ≤ 0 := by
    induction text with
    | nil => exact Int.le_refl 0
    | cons c text ih =>
      rw [List.forall_mem_cons] at h
      rw [peakFrom, h.1, Mark.rise, add_zero]
      exact Int.max_le.mpr ⟨Int.le_refl 0, ih h.2⟩
  unfold nesting
  omega

theorem nesting_prefixed (b : Bracket) (hs : ∀ c ∈ s, mark c = .plain)
    (hb : Balanced commas inside) :
    nesting (s ++ b.opener :: (inside ++ [b.closer])) = nesting inside + 1 := by
  have hplain := nesting_of_plain hs
  have hinner : peakFrom 1 inside = 1 + peakFrom 0 inside := peakFrom_add 0 1 inside
  have hs0 := le_peakFrom 0 s
  have hzero := le_peakFrom 0 inside
  unfold nesting at hplain ⊢
  simp only [peakFrom_append, height_of_plain hs, hb.height_eq_zero, peakFrom, mark_opener,
    mark_closer, Mark.rise, add_zero, zero_add, hinner]
  omega

theorem nesting_group_lt (b : Bracket) (h : height before = 0) (inside after : List Char) :
    nesting inside < nesting (before ++ b.opener :: (inside ++ after)) := by
  have hone : height (before ++ [b.opener]) = (1 : Nat) := by
    rw [height_append, h, height_singleton, mark_opener]
    rfl
  have := add_nesting_le hone inside after
  rw [List.append_assoc, List.singleton_append] at this
  omega

theorem nesting_left_lt (b : Bracket) (l after : List Char) :
    nesting l < nesting (b.opener :: (l ++ after)) := by
  have hzero : height [] = 0 := rfl
  exact nesting_group_lt b hzero l after

theorem nesting_right_lt (b b' : Bracket) (hl : Balanced commas l) (hc : mark c = .plain)
    (r after : List Char) :
    nesting r < nesting (b.opener :: (l ++ b.closer :: c :: b'.opener :: (r ++ after))) := by
  have hzero : height (b.opener :: (l ++ [b.closer, c])) = 0 := by
    rw [height_cons, height_append, hl.height_eq_zero, height_cons, height_singleton, mark_opener,
      mark_closer, hc]
    rfl
  have hlt := nesting_group_lt b' hzero r after
  simpa using hlt

theorem nesting_le_intercalate (h : ∀ text ∈ texts, Balanced true text) (ht : text ∈ texts) :
    nesting text ≤ nesting ([','].intercalate texts) := by
  have hsplit : ∃ before after, [','].intercalate texts = before ++ (text ++ after) ∧
      height before = (0 : Nat) := by
    induction texts with
    | nil => cases ht
    | cons text' texts ih =>
      rw [List.forall_mem_cons] at h
      cases texts with
      | nil => exact ⟨[], [], by simp [List.mem_singleton.mp ht], rfl⟩
      | cons text'' texts =>
        rw [List.intercalate_cons_cons]
        rcases List.mem_cons.mp ht with rfl | ht
        · exact ⟨[], _, List.append_assoc .., rfl⟩
        · obtain ⟨before, after, heq, hbefore⟩ := ih h.2 ht
          refine ⟨text' ++ [','] ++ before, after, by rw [heq]; simp, ?_⟩
          rw [height_append, height_append, h.1.height_eq_zero, hbefore]
          rfl
  obtain ⟨before, after, heq, hbefore⟩ := hsplit
  have := add_nesting_le hbefore text after
  rw [heq]
  omega

end Formula.Bracket
