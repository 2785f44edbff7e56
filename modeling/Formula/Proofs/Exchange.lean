import Formula.Proofs.Balance

/-!
# Exchanging the inside of a pair of brackets

Where one balanced text stands inside a pair of brackets another can stand, whatever is
around the pair. The text as a whole is then cut and split as before: the two sides have the
same segments and arguments but for the pair itself.
-/

namespace Formula.Bracket

variable {s s' : List Char}

/-- The same balanced text on both sides, except for pairs of brackets with `s` inside on one
side and `s'` on the other. -/
inductive Exchange (s s' : List Char) : List Char → List Char → Prop
  | nil : Exchange s s' [] []
  | plain : mark c = .plain → Exchange s s' rest rest' → Exchange s s' (c :: rest) (c :: rest')
  | group (b : Bracket) : Exchange s s' inside inside' → Exchange s s' rest rest' →
      Exchange s s' (b.opener :: (inside ++ b.closer :: rest))
        (b.opener :: (inside' ++ b.closer :: rest'))
  | exchanged (b : Bracket) : Exchange s s' rest rest' →
      Exchange s s' (b.opener :: (s ++ b.closer :: rest)) (b.opener :: (s' ++ b.closer :: rest'))

namespace Exchange

theorem refl (h : Balanced commas text) : Exchange s s' text text := by
  induction h with
  | nil => exact .nil
  | plain hc _ _ ih => exact .plain hc ih
  | group b _ _ ihi ih => exact .group b ihi ih

theorem append (h : Exchange s s' a a') (h' : Exchange s s' text text') :
    Exchange s s' (a ++ text) (a' ++ text') := by
  induction h with
  | nil => exact h'
  | plain hc _ ih => exact .plain hc ih
  | group b hi _ _ ih => simpa using Exchange.group b hi ih
  | exchanged b _ ih => simpa using Exchange.exchanged b ih

theorem left (hs : Balanced true s) (h : Exchange s s' text text') : Balanced true text := by
  induction h with
  | nil => exact .nil
  | plain hc _ ih => exact .plain hc (fun _ => rfl) ih
  | group b _ _ ihi ih => exact .group b ihi ih
  | exchanged b _ ih => exact .group b hs ih

theorem symm (h : Exchange s s' text text') : Exchange s' s text' text := by
  induction h with
  | nil => exact .nil
  | plain hc _ ih => exact .plain hc ih
  | group b _ _ ihi ih => exact .group b ihi ih
  | exchanged b _ ih => exact .exchanged b ih

theorem right (hs' : Balanced true s') (h : Exchange s s' text text') : Balanced true text' :=
  h.symm.left hs'

end Exchange

-- ---------------------------------------------------------------------------
-- Any context
-- ---------------------------------------------------------------------------

/-- The rest of a text in which the brackets that are open, the last one first, are closed one
after the other, the same on both sides but for exchanges. -/
inductive Closes (s s' : List Char) : List Bracket → List Char → List Char → Prop
  | nil : Exchange s s' text text' → Closes s s' [] text text'
  | cons : Exchange s s' inside inside' → Closes s s' opened rest rest' →
      Closes s s' (b :: opened) (inside ++ b.closer :: rest) (inside' ++ b.closer :: rest')

namespace Closes

theorem plain (hc : mark c = .plain) (h : Closes s s' opened rest rest') :
    Closes s s' opened (c :: rest) (c :: rest') := by
  cases h with
  | nil h => exact .nil (.plain hc h)
  | cons hi h => exact .cons (.plain hc hi) h

theorem opens (h : Closes s s' (b :: opened) rest rest') :
    Closes s s' opened (b.opener :: rest) (b.opener :: rest') := by
  obtain _ | ⟨hi, h⟩ := h
  cases h with
  | nil h => exact .nil (.group b hi h)
  | cons hi' h => simpa using Closes.cons (.group b hi hi') h

theorem exchanged (b : Bracket) (h : Closes s s' opened rest rest') :
    Closes s s' opened (b.opener :: (s ++ b.closer :: rest))
      (b.opener :: (s' ++ b.closer :: rest')) := by
  cases h with
  | nil h => exact .nil (.exchanged b h)
  | cons hi h => simpa using Closes.cons (.exchanged b hi) h

end Closes

theorem Cut.closes (h : Cut n opened held text segs) :
    Closes s s' (opened.map (·.1)) text text := by
  induction h with
  | done => exact .nil .nil
  | plain hc _ ih => exact ih.plain hc
  | opens _ ih => exact ih.opens
  | nests _ _ ih => exact ih.opens
  | ends _ ih => exact .cons .nil ih
  | leaves _ _ ih => exact .cons .nil ih

theorem Cut.closes_after (b : Bracket) (hs : Balanced true s)
    (h : Cut n opened held (b.opener :: (s ++ b.closer :: rest)) segs) :
    Closes s s' (opened.map (·.1)) rest rest := by
  have hcut := h.segmentsFrom_eq
  cases opened with
  | nil =>
    rw [segmentsFrom_opens, segmentsFrom_balanced hs (List.cons_ne_nil _ _),
      segmentsFrom_ends] at hcut
    cases hrest : segmentsFrom (n + 1 + s.length + 1) [] [] rest with
    | error => rw [hrest] at hcut; cases hcut
    | ok later => exact (cut_of_segmentsFrom hrest).closes
  | cons top outer =>
    rw [segmentsFrom_nests (List.cons_ne_nil _ _), segmentsFrom_balanced hs (List.cons_ne_nil _ _),
      segmentsFrom_leaves (List.cons_ne_nil _ _)] at hcut
    exact (cut_of_segmentsFrom hcut).closes

theorem Cut.exchange (b : Bracket) (hs : Balanced true s)
    (h : Cut n opened held (before ++ b.opener :: (s ++ b.closer :: after)) segs) :
    Closes s s' (opened.map (·.1)) (before ++ b.opener :: (s ++ b.closer :: after))
      (before ++ b.opener :: (s' ++ b.closer :: after)) := by
  induction before generalizing n opened held segs with
  | nil => exact (h.closes_after b hs).exchanged b
  | cons c before ih =>
    cases h with
    | plain hc h => exact (ih h).plain hc
    | opens h => exact (ih h).opens
    | nests _ h => exact (ih h).opens
    | ends h => exact .cons .nil (ih h)
    | leaves _ h => exact .cons .nil (ih h)

/-- In a text that can be cut the inside of any pair of brackets can be exchanged, also where
the texts around the pair open or close others. -/
theorem exchange_of_segments (b : Bracket) (hs : Balanced true s)
    (h : segments (before ++ b.opener :: (s ++ b.closer :: after)) = .ok segs) :
    Exchange s s' (before ++ b.opener :: (s ++ b.closer :: after))
      (before ++ b.opener :: (s' ++ b.closer :: after)) := by
  obtain h | _ := (segments_eq_ok.mp h).exchange b hs
  exact h

-- ---------------------------------------------------------------------------
-- Segments
-- ---------------------------------------------------------------------------

/-- The same segment on both sides, or a group in which there are exchanges, or that is one. -/
inductive Segment.Exchange (s s' : List Char) : Segment → Segment → Prop
  | plain : (∀ c ∈ text, mark c = .plain) → Segment.Exchange s s' (.plain n text) (.plain n' text)
  | group : Bracket.Exchange s s' inside inside' →
      Segment.Exchange s s' (.group b n inside) (.group b n' inside')
  | exchanged : Segment.Exchange s s' (.group b n s) (.group b n' s')

theorem forall₂_plainBefore (h : ∀ c ∈ held, mark c = .plain) (n n' : Nat) :
    List.Forall₂ (Segment.Exchange s s') (plainBefore n held) (plainBefore n' held) := by
  cases held with
  | nil => exact .nil
  | cons c held => exact .cons (.plain fun d hd => h d (List.mem_reverse.mp hd)) .nil

theorem Exchange.cut (hs : Balanced true s) (hs' : Balanced true s')
    (h : Exchange s s' text text') (n n' : Nat) (hheld : ∀ c ∈ held, mark c = .plain) :
    ∃ segs segs', Cut n [] held text segs ∧ Cut n' [] held text' segs' ∧
      List.Forall₂ (Segment.Exchange s s') segs segs' := by
  induction h generalizing n n' held with
  | nil => exact ⟨_, _, .done, .done, forall₂_plainBefore hheld n n'⟩
  | plain hc _ ih =>
    obtain ⟨segs, segs', hcut, hcut', hsegs⟩ :=
      ih (n + 1) (n' + 1) (List.forall_mem_cons.mpr ⟨hc, hheld⟩)
    exact ⟨segs, segs', .plain hc hcut, .plain hc hcut', hsegs⟩
  | group b hi _ _ ih =>
    obtain ⟨segs, segs', hcut, hcut', hsegs⟩ := ih _ _ (List.forall_mem_nil _)
    exact ⟨_, _, .group_text (hi.left hs) hcut, .group_text (hi.right hs') hcut',
      List.rel_append (forall₂_plainBefore hheld n n') (.cons (.group hi) hsegs)⟩
  | exchanged b _ ih =>
    obtain ⟨segs, segs', hcut, hcut', hsegs⟩ := ih _ _ (List.forall_mem_nil _)
    exact ⟨_, _, .group_text hs hcut, .group_text hs' hcut',
      List.rel_append (forall₂_plainBefore hheld n n') (.cons .exchanged hsegs)⟩

theorem Exchange.segments (hs : Balanced true s) (hs' : Balanced true s')
    (h : Exchange s s' text text') :
    ∃ segs segs', segments text = .ok segs ∧ Bracket.segments text' = .ok segs' ∧
      List.Forall₂ (Segment.Exchange s s') segs segs' := by
  obtain ⟨segs, segs', hcut, hcut', hrel⟩ := h.cut hs hs' 0 0 (List.forall_mem_nil _)
  exact ⟨segs, segs', segments_eq_ok.mpr hcut, segments_eq_ok.mpr hcut', hrel⟩

-- ---------------------------------------------------------------------------
-- Arguments
-- ---------------------------------------------------------------------------

theorem Exchange.piecesFrom (hs : Balanced true s) (hs' : Balanced true s')
    (h : Exchange s s' text text') (hheld : Exchange s s' held.reverse held'.reverse) :
    List.Forall₂ (Exchange s s') (piecesFrom 0 held text) (piecesFrom 0 held' text') := by
  induction h generalizing held held' with
  | nil => exact .cons hheld .nil
  | @plain c _ _ hc _ ih =>
    rw [Bracket.piecesFrom, Bracket.piecesFrom]
    split
    · exact .cons hheld (ih .nil)
    · rw [hc]
      refine ih ?_
      rw [List.reverse_cons, List.reverse_cons]
      exact hheld.append (.plain hc .nil)
  | group b hi _ _ ih =>
    rw [piecesFrom_group b (hi.left hs), piecesFrom_group b (hi.right hs')]
    refine ih ?_
    rw [List.reverse_append, List.reverse_append, List.reverse_reverse, List.reverse_reverse]
    exact hheld.append (.group b hi .nil)
  | exchanged b _ ih =>
    rw [piecesFrom_group b hs, piecesFrom_group b hs']
    refine ih ?_
    rw [List.reverse_append, List.reverse_append, List.reverse_reverse, List.reverse_reverse]
    exact hheld.append (.exchanged b .nil)

theorem Exchange.isBlankText_eq (h : Exchange s s' text text') :
    Text.isBlankText text = Text.isBlankText text' := by
  induction h with
  | nil => rfl
  | plain _ _ ih => simp only [Text.isBlankText, List.all_cons] at ih ⊢; rw [ih]
  | group b => simp [Text.isBlankText, isBlank_opener]
  | exchanged b => simp [Text.isBlankText, isBlank_opener]

theorem Exchange.arguments (hs : Balanced true s) (hs' : Balanced true s')
    (h : Exchange s s' text text') :
    List.Forall₂ (Exchange s s') (arguments text) (arguments text') := by
  refine List.rel_filter ?_ (h.piecesFrom hs hs' .nil)
  intro piece piece' hpiece
  simp [hpiece.isBlankText_eq]

end Formula.Bracket
