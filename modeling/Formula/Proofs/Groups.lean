import Formula.Proofs.EqualOptions
import Formula.Proofs.Readable

/-!
# Groups count by their trees

A pair of brackets around a formula has the tree of the formula. In any text the inside of the
pair can be exchanged for another with that tree, and the text keeps its own; for another with an
equal tree, and the text has an equal one. Only the nesting can stand in the way.
-/

namespace Formula

variable {o : Options} {s s' text text' : List Char} {R : Expr → Expr → Prop}

theorem Fits.argument {argument : List Char} (h : Fits o (room + 1) depth text)
    (hs : Bracket.segments text = .ok segs) (hg : .group b n inside ∈ segs)
    (ha : argument ∈ Bracket.arguments inside) : Fits o room (depth + 1) argument :=
  h.inner (Bracket.Within.argument hs hg ha).nesting_lt

namespace Parser

variable {p : Parser}

-- ---------------------------------------------------------------------------
-- One text at all depths
-- ---------------------------------------------------------------------------

def Reads (p : Parser) (text : List Char) (e : Expr) : Prop :=
  ∀ shown room depth, Fits p.options room depth text → p.readAt shown room depth text = .ok e

theorem reads_of_step (h : Step p p.Reads text e) : p.Reads text e := by
  obtain ⟨hs, hread, hreduce⟩ := h
  intro shown room depth hfits
  obtain ⟨room, rfl⟩ := hfits.exists_room
  refine readAt_succ_eq_ok.mpr ⟨hfits.here, .intro hs ((forall₂_mem hread).imp ?_) hreduce⟩
  rintro seg parts ⟨hseg, -, hparts⟩
  cases hparts with
  | plain => exact .plain
  | group hes =>
    refine .group ((forall₂_mem hes).imp ?_)
    rintro argument e ⟨ha, -, he⟩
    exact he shown room (depth + 1) (hfits.argument hs hseg ha)

theorem reads_of_readAt (h : p.readAt shown room depth text = .ok e) : p.Reads text e :=
  readAt_induction (fun _ _ => reads_of_step) h

theorem Reads.enclosed (b : Bracket) (hs : Bracket.Whole s) (he : e.isNumeric = true)
    (h : p.Reads s e) : p.Reads (b.opener :: (s ++ [b.closer])) e := by
  intro shown room depth hfits
  obtain ⟨room, rfl⟩ := hfits.exists_room
  have hread := h shown room (depth + 1) (hfits.inner (Bracket.nesting_left_lt b s [b.closer]))
  exact readAt_succ_eq_ok.mpr ⟨hfits.here, .intro (Bracket.segments_enclosed b hs.1)
    (.cons (.group (forall₂_whole hs hread)) .nil) (Part.reduce_tree he)⟩

-- ---------------------------------------------------------------------------
-- Two texts with exchanges between them
-- ---------------------------------------------------------------------------

/-- With exchanges in it the text is read as a related tree, wherever both texts fit. -/
def Stable (p : Parser) (R : Expr → Expr → Prop) (s s' text : List Char) (e : Expr) : Prop :=
  ∀ shown text' room depth, Bracket.Exchange s s' text text' → Fits p.options room depth text →
    Fits p.options room depth text' → ∃ e', p.readAt shown room depth text' = .ok e' ∧ R e e'

section Exchange

variable {E : ParseError → ParseError → Prop} (halike : Alike R E p.options p.options)
  (hs : Bracket.Whole s) (hs' : Bracket.Whole s') (h : p.Reads s a) (h' : p.Reads s' a')
  (hrel : R a a')

include halike hs hs' h h' hrel

theorem SegmentRead.exchange (shown : Nat → Nat)
    (hread : SegmentRead p (fun text e => p.Reads text e ∧ p.Stable R s s' text e) seg parts)
    (hex : seg.Exchange s s' seg') (hsegs : Bracket.segments text = .ok segs) (hseg : seg ∈ segs)
    (hsegs' : Bracket.segments text' = .ok segs') (hseg' : seg' ∈ segs')
    (hfits : Fits p.options (room + 1) depth text)
    (hfits' : Fits p.options (room + 1) depth text') :
    ∃ parts', SegmentRead p (fun text e => p.readAt shown room (depth + 1) text = .ok e) seg'
      parts' ∧ List.Forall₂ (Part.Alike R) parts parts' := by
  cases hex with
  | plain =>
    cases hread
    refine ⟨_, .plain, List.forall₂_map_left_iff.mpr (List.forall₂_map_right_iff.mpr ?_)⟩
    exact List.forall₂_same.mpr fun t _ => halike.ofToken t
  | group hinside =>
    obtain _ | hes := hread
    have harguments := hinside.arguments hs.1.weaken hs'.1.weaken
    obtain ⟨es', hes', hrel⟩ := exists_forall₂_along (forall₂_mem harguments) hes (by
      rintro argument argument' e ⟨ha, ha', hargument⟩ ⟨-, he⟩
      exact he shown argument' room (depth + 1) hargument (hfits.argument hsegs hseg ha)
        (hfits'.argument hsegs' hseg' ha'))
    exact ⟨_, .group hes', .cons (Part.alike_ofGroup hrel) .nil⟩
  | exchanged =>
    obtain _ | hes := hread
    have hmem : s ∈ Bracket.arguments s := by simp [Bracket.arguments_whole hs]
    have hmem' : s' ∈ Bracket.arguments s' := by simp [Bracket.arguments_whole hs']
    have hinner := hfits.argument hsegs hseg hmem
    have hinner' := hfits'.argument hsegs' hseg' hmem'
    rw [Bracket.arguments_whole hs] at hes
    obtain _ | ⟨⟨he, -⟩, _ | _⟩ := hes
    -- Both insides stand alone in their pair, and their trees are the related ones.
    have hsame := (he shown room (depth + 1) hinner).symm.trans (h _ _ _ hinner)
    cases hsame
    exact ⟨_, .group (forall₂_whole hs' (h' _ _ _ hinner')), .cons (.tree hrel) .nil⟩

theorem stable_of_readAt (hread : p.readAt shown room depth text = .ok u) :
    p.Stable R s s' text u := by
  refine (readAt_induction (P := fun text e => p.Reads text e ∧ p.Stable R s s' text e) ?_ hread).2
  rintro text u ⟨hsegs, hparts, hreduce⟩
  refine ⟨reads_of_step (.intro hsegs (hparts.imp fun _ _ hr => hr.mono fun _ _ => And.left)
    hreduce), fun shown text' room depth hex hfits hfits' => ?_⟩
  obtain ⟨room, rfl⟩ := hfits.exists_room
  obtain ⟨_, segs', hsegs₁, hsegs', hexchange⟩ := hex.segments hs.1.weaken hs'.1.weaken
  obtain rfl := Except.ok.inj (hsegs.symm.trans hsegs₁)
  obtain ⟨parts', hparts', hrelated⟩ := exists_forall₂_along (forall₂_mem hexchange) hparts (by
    rintro seg seg' parts ⟨hseg, hseg', hexchange⟩ hparts
    exact hparts.exchange halike hs hs' h h' hrel shown hexchange hsegs hseg hsegs' hseg' hfits
      hfits')
  have hreduced := halike.reduce (List.rel_flatten hrelated)
  rw [hreduce] at hreduced
  obtain ⟨u', hreduce', hu⟩ := hreduced.exists_of_ok
  exact ⟨u', readAt_succ_eq_ok.mpr ⟨hfits'.here, .intro hsegs' hparts' hreduce'⟩, hu⟩

end Exchange

end Parser

-- ---------------------------------------------------------------------------
-- Formulas
-- ---------------------------------------------------------------------------

structure IsFormula (o : Options) (text : List Char) (e : Expr) : Prop where
  checked : checkDeclarations o.variableNames o.functions.signatures = .ok ()
  whole : Bracket.Whole text
  isNumeric : e.isNumeric = true
  reads : (Parser.mk o o.vocabulary).Reads text e

variable {l : Parser.Limits}

theorem isFormula_of_parseWithin (h : parseWithin l o text = .ok e) : IsFormula o text e := by
  obtain ⟨hcheck, hread⟩ := parseWithin_eq_ok.mp h
  exact ⟨hcheck, whole_of_readAt (checkDeclarations_eq_ok.mp hcheck) hread,
    Parser.isNumeric_of_readAt hread, Parser.reads_of_readAt hread⟩

/-- The brackets of a text are nested as deep as the limit allows at most, and less deep than
there are levels that can be read. -/
def Allowed (o : Options) (levels : Nat) (text : List Char) : Prop :=
  o.isTooDeep (Bracket.nesting text) = false ∧ Bracket.nesting text < levels

theorem Allowed.fits (h : Allowed o levels text) : Fits o levels 0 text := fits_of_nesting h.1 h.2

theorem IsFormula.parseWithin_eq (h : IsFormula o text e) (ha : Allowed o l.brackets text) :
    parseWithin l o text = .ok e :=
  parseWithin_eq_ok.mpr ⟨h.checked, h.reads l.shown l.brackets 0 ha.fits⟩

theorem IsFormula.enclosed (b : Bracket) (h : IsFormula o s e) :
    IsFormula o (b.opener :: (s ++ [b.closer])) e :=
  ⟨h.checked, h.whole.enclosed b, h.isNumeric, h.reads.enclosed b h.whole h.isNumeric⟩

theorem IsFormula.exchange (b : Bracket) {before after : List Char}
    {E : ParseError → ParseError → Prop} (halike : Alike R E o o) (h : IsFormula o s e)
    (h' : IsFormula o s' e') (hrel : R e e')
    (ha : Allowed o l.brackets (before ++ b.opener :: (s ++ b.closer :: after)))
    (ha' : Allowed o l.brackets (before ++ b.opener :: (s' ++ b.closer :: after)))
    (hu : parseWithin l o (before ++ b.opener :: (s ++ b.closer :: after)) = .ok u) :
    ∃ u', parseWithin l o (before ++ b.opener :: (s' ++ b.closer :: after)) = .ok u' ∧
      R u u' := by
  obtain ⟨-, hread⟩ := parseWithin_eq_ok.mp hu
  obtain ⟨segs, hsegs⟩ := Bracket.segments_isOk_iff.mpr (Parser.balanced_of_readAt hread)
  have hex : Bracket.Exchange s s' _ (before ++ b.opener :: (s' ++ b.closer :: after)) :=
    Bracket.exchange_of_segments b h.whole.1.weaken hsegs
  obtain ⟨u', hu', hrel⟩ := Parser.stable_of_readAt halike h.whole h'.whole h.reads h'.reads hrel
    hread l.shown _ l.brackets 0 hex ha.fits ha'.fits
  exact ⟨u', parseWithin_eq_ok.mpr ⟨h.checked, hu'⟩, hrel⟩

/-- However many levels of brackets can be read, as long as neither they nor the limit are used
up: a formula in brackets has the tree of the formula, and in any text the formula inside a
pair of brackets can be exchanged for another with the same tree. Exchanged for one with an equal
tree, it makes an equal tree of the text, unless a declared range is not equal to itself. -/
theorem groups_count_by_their_trees (o : Options) :
    (∃ l : Parser.Limits, l.Govern) ∧
    ∀ (l : Parser.Limits) (s : List Char) (e : Expr), parseWithin l o s = .ok e →
      (∀ b : Bracket, Allowed o l.brackets (b.opener :: (s ++ [b.closer])) →
        parseWithin l o (b.opener :: (s ++ [b.closer])) = .ok e) ∧
      ∀ (s' : List Char) (e' : Expr), parseWithin l o s' = .ok e' →
        ∀ (b : Bracket) (before after : List Char),
        Allowed o l.brackets (before ++ b.opener :: (s ++ b.closer :: after)) →
        Allowed o l.brackets (before ++ b.opener :: (s' ++ b.closer :: after)) →
        (e = e' → ∀ u, parseWithin l o (before ++ b.opener :: (s ++ b.closer :: after)) = .ok u ↔
          parseWithin l o (before ++ b.opener :: (s' ++ b.closer :: after)) = .ok u) ∧
        (e.same e' = true →
          (∀ d ∈ o.functions.definitions, d.signature.same d.signature = true) →
          ∀ u, parseWithin l o (before ++ b.opener :: (s ++ b.closer :: after)) = .ok u →
            ∃ u', parseWithin l o (before ++ b.opener :: (s' ++ b.closer :: after)) = .ok u' ∧
              u.same u' = true) := by
  refine ⟨Parser.exists_govern, fun l s e h => ?_⟩
  have hs := isFormula_of_parseWithin h
  refine ⟨fun b ha => (hs.enclosed b).parseWithin_eq ha, fun s' e' h' b before after ha ha' => ?_⟩
  have hs' := isFormula_of_parseWithin h'
  constructor
  · rintro rfl u
    constructor
    · intro hu
      obtain ⟨_, hu', rfl⟩ := hs.exchange b (alike_refl o) hs' rfl ha ha' hu
      exact hu'
    · intro hu
      obtain ⟨_, hu', rfl⟩ := hs'.exchange b (alike_refl o) hs rfl ha' ha hu
      exact hu'
  · intro hsame hself u hu
    exact hs.exchange b (alike_same_self hself) hs' hsame ha ha' hu

/-- The argument of a call is exchanged for one inside of more brackets. -/
theorem groups_count_by_their_trees_in_arguments :
    let o : Options := {
      variableNames := .ofTexts ["x", "y"]
      functions := .ofList [⟨.of "f" 0 2, none⟩] }
    (∃ e, parse o "x" = .ok e ∧ parse o "(x)" = .ok e) ∧
      ∃ u, parse o "f(y,[x])" = .ok u ∧ parse o "f(y,[(x)])" = .ok u := by
  intro o
  obtain ⟨-, hgroups⟩ := groups_count_by_their_trees o
  obtain ⟨e, he⟩ := exists_of_isOk (show (parse o "x").isOk = true by decide +kernel)
  obtain ⟨u, hu⟩ := exists_of_isOk (show (parse o "f(y,[x])").isOk = true by decide +kernel)
  have hx : parseWithin Parser.limits o "x".toList = .ok e := he
  have hround : parseWithin Parser.limits o "(x)".toList = .ok e :=
    (hgroups _ _ e hx).1 .round ⟨by decide +kernel, by decide +kernel⟩
  have hiff := ((hgroups _ _ e hx).2 _ e hround .square "f(y,".toList ")".toList
    ⟨by decide +kernel, by decide +kernel⟩ ⟨by decide +kernel, by decide +kernel⟩).1 rfl u
  exact ⟨⟨e, he, hround⟩, u, hu, hiff.mp hu⟩

-- ---------------------------------------------------------------------------
-- The levels
-- ---------------------------------------------------------------------------

namespace Bracket

def nested : Nat → List Char → List Char
  | 0, text => text
  | n + 1, text => round.opener :: (nested n text ++ [round.closer])

theorem nested_nested (m n : Nat) (text : List Char) :
    nested m (nested n text) = nested (m + n) text := by
  induction m with
  | zero => rw [Nat.zero_add]; rfl
  | succ m ih => rw [nested, ih, Nat.succ_add]; rfl

theorem nested_eq (n : Nat) (text : List Char) :
    nested n text = List.replicate n '(' ++ (text ++ List.replicate n ')') := by
  induction n with
  | zero => simp [nested]
  | succ n ih =>
    rw [nested, ih, List.replicate_succ, List.replicate_succ']
    simp [opener, closer]

theorem nested_around (m n : Nat) (text : List Char) :
    List.replicate m '(' ++ '(' :: (nested n text ++ ')' :: List.replicate m ')') =
      nested (m + (n + 1)) text := by
  rw [← nested_nested, nested_eq m, nested]
  simp [opener, closer]

theorem whole_nested (h : Whole text) (n : Nat) : Whole (nested n text) := by
  induction n with
  | zero => exact h
  | succ n ih => exact ih.enclosed .round

theorem nesting_nested (h : Whole text) (n : Nat) : nesting (nested n text) = nesting text + n := by
  induction n with
  | zero => rfl
  | succ n ih =>
    have hstep := nesting_prefixed .round (List.forall_mem_nil (mark · = .plain))
      (whole_nested h n).1
    rw [ih] at hstep
    exact hstep

end Bracket

theorem IsFormula.nested (h : IsFormula o s e) (n : Nat) : IsFormula o (Bracket.nested n s) e := by
  induction n with
  | zero => exact h
  | succ n ih => exact ih.enclosed .round

theorem IsFormula.nested_exhausted (h : IsFormula o s e)
    (hlimit : o.isTooDeep (Bracket.nesting s + n) = false) (hn : l.brackets ≤ n) :
    parseWithin l o (Bracket.nested n s) = .error .exhausted := by
  have hgroup : ∀ n, Bracket.segments (Bracket.nested (n + 1) s) =
      .ok [.group .round 0 (Bracket.nested n s)] := fun n =>
    Bracket.segments_enclosed .round (Bracket.whole_nested h.whole n).1
  rw [parseWithin_of_check h.checked]
  refine Parser.readAt_exhausted (Bracket.whole_nested h.whole)
    (fun n => ⟨0, [], .round, hgroup n⟩) (fun k hk => ?_) hn
  have hle : 0 + k ≤ Bracket.nesting s + n := by omega
  exact Options.isTooDeep_of_le hle hlimit

/-- A great limit alone does not make formulas in deep brackets readable, though the same tree
stands in each. -/
theorem deep_groups_are_refused :
    let o : Options := { maxDepth := .whole 1000 }
    let s := ['x']
    let s' := List.replicate 350 '(' ++ (s ++ List.replicate 350 ')')
    let around (inside : List Char) :=
      List.replicate 349 '(' ++ '(' :: (inside ++ ')' :: List.replicate 349 ')')
    (∃ e, parse o (.ofList s) = .ok e ∧ parse o (.ofList s') = .ok e ∧
      parse o (.ofList (around s)) = .ok e) ∧
    o.isTooDeep (Bracket.nesting (around s)) = false ∧
    o.isTooDeep (Bracket.nesting (around s')) = false ∧
    parse o (.ofList (around s')) = .error .exhausted := by
  intro o s s' around
  have hs' : s' = Bracket.nested 350 s := (Bracket.nested_eq 350 s).symm
  have haround : around s = Bracket.nested 350 s := Bracket.nested_around 349 0 s
  have haround' : around s' = Bracket.nested 700 s := by
    rw [hs']
    exact Bracket.nested_around 349 350 s
  obtain ⟨e, he⟩ := exists_of_isOk (show (parse o (.ofList s)).isOk = true by decide +kernel)
  have hformula := isFormula_of_parseWithin ((parse_ofList o s).symm.trans he)
  have hnesting := Bracket.nesting_nested hformula.whole
  have hshallow : o.isTooDeep (Bracket.nesting s + 350) = false := by decide
  have hdeep : o.isTooDeep (Bracket.nesting s + 700) = false := by decide
  have hlevels : Bracket.nesting s + 350 < Parser.limits.brackets := by decide
  have hnested : parse o (.ofList (Bracket.nested 350 s)) = .ok e := by
    rw [← hnesting] at hshallow hlevels
    rw [parse_ofList]
    exact (hformula.nested 350).parseWithin_eq ⟨hshallow, hlevels⟩
  rw [haround, haround', hs', hnesting, hnesting, parse_ofList o (Bracket.nested 700 s)]
  exact ⟨⟨e, he, hnested, hnested⟩, hshallow, hdeep, hformula.nested_exhausted hdeep (by decide)⟩

end Formula
