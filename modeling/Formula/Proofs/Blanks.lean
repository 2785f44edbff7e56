import Formula.Proofs.Faults

/-!
# Blanks do not matter

A text and what is left of it without its blanks have the same segments, arguments and
tokens, apart from stretches of nothing but blanks, which come to nothing. So they have
the same tree or the same error. Only the positions in a bracket fault count blanks.
-/

namespace Formula

namespace Text

variable {text : List Char}

theorem squeeze_cons_blank (h : isBlank c = true) (text : List Char) :
    squeeze (c :: text) = squeeze text := List.filter_cons_of_neg (by simp [h])

theorem squeeze_cons (h : isBlank c = false) (text : List Char) :
    squeeze (c :: text) = c :: squeeze text := List.filter_cons_of_pos (by simp [h])

theorem squeeze_squeeze (text : List Char) : squeeze (squeeze text) = squeeze text := by
  simp [squeeze]

theorem squeeze_reverse (text : List Char) : squeeze text.reverse = (squeeze text).reverse :=
  List.filter_reverse

theorem isBlankText_squeeze (text : List Char) :
    isBlankText (squeeze text) = isBlankText text := by
  rw [Bool.eq_iff_iff, ← squeeze_eq_nil, ← squeeze_eq_nil, squeeze_squeeze]

def Moves (text : List Char) (c : Char) (n n' : Nat) : Prop :=
  ∃ before after, text = before ++ c :: after ∧ before.length = n ∧ (squeeze before).length = n'

end Text

-- ---------------------------------------------------------------------------
-- Arguments
-- ---------------------------------------------------------------------------

namespace Bracket

open Text (squeeze isBlank isBlankText)

theorem piecesFrom_squeeze (depth : Int) (held text : List Char) :
    piecesFrom depth (squeeze held) (squeeze text) = (piecesFrom depth held text).map squeeze := by
  fun_induction piecesFrom depth held text with
  | case1 => rw [List.map_singleton, Text.squeeze_reverse]; rfl
  | case2 depth held c rest hc ih =>
    have hcomma : isBlank ',' = false := by decide
    obtain ⟨rfl, rfl⟩ := hc
    have ih : piecesFrom 0 [] (squeeze rest) = (piecesFrom 0 [] rest).map squeeze := ih
    rw [Text.squeeze_cons hcomma, piecesFrom, if_pos ⟨rfl, rfl⟩, ih, List.map_cons,
      Text.squeeze_reverse]
  | case3 depth held c rest hc ih =>
    cases hb : isBlank c with
    | true =>
      rw [mark_of_isBlank hb, Mark.rise, add_zero, Text.squeeze_cons_blank hb] at ih
      rw [mark_of_isBlank hb, Mark.rise, add_zero, Text.squeeze_cons_blank hb, ih]
    | false =>
      rw [Text.squeeze_cons hb] at ih
      rw [Text.squeeze_cons hb, piecesFrom, if_neg hc, ih]

theorem arguments_squeeze (text : List Char) :
    arguments (squeeze text) = (arguments text).map squeeze := by
  have hpieces : pieces (squeeze text) = (pieces text).map squeeze := piecesFrom_squeeze 0 [] text
  rw [arguments, arguments, hpieces, List.filter_map]
  congr 1
  exact List.filter_congr fun piece _ => congrArg _ (Text.isBlankText_squeeze piece)

-- ---------------------------------------------------------------------------
-- Segments
-- ---------------------------------------------------------------------------

/-- The segments of a text, and those of the text without its blanks. A plain segment of
nothing but blanks is gone. -/
inductive Squeezed : List Segment → List Segment → Prop
  | nil : Squeezed [] []
  | blank : isBlankText text = true → Squeezed segs segs' →
      Squeezed (.plain n text :: segs) segs'
  | plain : Squeezed segs segs' →
      Squeezed (.plain n text :: segs) (.plain n' (squeeze text) :: segs')
  | group : Squeezed segs segs' →
      Squeezed (.group b n inside :: segs) (.group b n' (squeeze inside) :: segs')

theorem Squeezed.before (h : Squeezed segs segs') (n n' : Nat) (held : List Char) :
    Squeezed (plainBefore n held ++ segs) (plainBefore n' (squeeze held) ++ segs') := by
  cases held with
  | nil => exact h
  | cons c held =>
    cases hs : squeeze (c :: held) with
    | nil =>
      refine .blank ?_ h
      rw [← Text.squeeze_eq_nil, Text.squeeze_reverse, hs]
      rfl
    | cons d rest =>
      have hplain : squeeze (c :: held).reverse = (d :: rest).reverse := by
        rw [Text.squeeze_reverse, hs]
      simp only [plainBefore, List.isEmpty_cons, Bool.false_eq_true, if_false, ← hplain]
      exact .plain h

/-- The same fault in a text and in the text without its blanks, at the same characters. -/
inductive Fault.Squeezed (text : List Char) : Fault → Fault → Prop
  | unexpectedCloser : Text.Moves text b.closer n n' →
      Squeezed text (.unexpectedCloser b n) (.unexpectedCloser b n')
  | unclosed : Text.Moves text b.opener n n' →
      Squeezed text (.unclosed b n text.length) (.unclosed b n' (squeeze text).length)

abbrev OpenedAlike (text : List Char) : List (Bracket × Nat) → List (Bracket × Nat) → Prop :=
  List.Forall₂ fun top top' => top.1 = top'.1 ∧ Text.Moves text top.1.opener top.2 top'.2

/-- Cut from these positions on, the rest of a text and the rest without its blanks come to the
same, whatever is open and held. -/
def CutAlike (whole : List Char) (n n' : Nat) (text : List Char) : Prop :=
  ∀ opened opened' held, OpenedAlike whole opened opened' →
    Parallel (Fault.Squeezed whole) Squeezed (segmentsFrom n opened held text)
      (segmentsFrom n' opened' (squeeze held) (squeeze text))

theorem cutAlike_nil (whole : List Char) :
    CutAlike whole whole.length (squeeze whole).length [] := by
  intro opened opened' held hopened
  cases hopened with
  | nil =>
    have hplain := Squeezed.nil.before whole.length (squeeze whole).length held
    simp only [List.append_nil] at hplain
    exact .ok hplain
  | @cons top top' _ _ h _ =>
    obtain ⟨b, start⟩ := top
    obtain ⟨b', start'⟩ := top'
    obtain ⟨rfl, hmoves⟩ := h
    exact .error (.unclosed hmoves)

namespace CutAlike

theorem blank (hb : isBlank c = true) (h : CutAlike whole (n + 1) n' text) :
    CutAlike whole n n' (c :: text) := by
  intro opened opened' held hopened
  have hnext := h opened opened' (c :: held) hopened
  rw [Text.squeeze_cons_blank hb] at hnext
  rwa [segmentsFrom_plain (mark_of_isBlank hb), Text.squeeze_cons_blank hb]

theorem plain (hb : isBlank c = false) (hm : mark c = .plain)
    (h : CutAlike whole (n + 1) (n' + 1) text) : CutAlike whole n n' (c :: text) := by
  intro opened opened' held hopened
  rw [Text.squeeze_cons hb, segmentsFrom_plain hm, segmentsFrom_plain hm, ← Text.squeeze_cons hb]
  exact h opened opened' (c :: held) hopened

theorem opener {b : Bracket} (hmoves : Text.Moves whole b.opener n n')
    (h : CutAlike whole (n + 1) (n' + 1) text) : CutAlike whole n n' (b.opener :: text) := by
  intro opened opened' held hopened
  rw [Text.squeeze_cons (isBlank_opener b)]
  cases hopened with
  | nil =>
    have htop : OpenedAlike whole [(b, n)] [(b, n')] := .cons ⟨rfl, hmoves⟩ .nil
    rw [segmentsFrom_opens, segmentsFrom_opens]
    exact (h _ _ [] htop).map fun _ _ hsegs => hsegs.before n n' held
  | @cons top top' outer outer' htop houter =>
    have hnested : OpenedAlike whole ((b, n) :: top :: outer) ((b, n') :: top' :: outer') :=
      .cons ⟨rfl, hmoves⟩ (.cons htop houter)
    rw [segmentsFrom_nests (List.cons_ne_nil _ _), segmentsFrom_nests (List.cons_ne_nil _ _),
      ← Text.squeeze_cons (isBlank_opener b)]
    exact h _ _ (b.opener :: held) hnested

theorem closer {b : Bracket} (hmoves : Text.Moves whole b.closer n n')
    (h : CutAlike whole (n + 1) (n' + 1) text) : CutAlike whole n n' (b.closer :: text) := by
  intro opened opened' held hopened
  rw [Text.squeeze_cons (isBlank_closer b)]
  cases hopened with
  | nil =>
    rw [segmentsFrom_stray, segmentsFrom_stray]
    exact .error (.unexpectedCloser hmoves)
  | @cons top top' outer outer' htop houter =>
    obtain ⟨b', start⟩ := top
    obtain ⟨_, start'⟩ := top'
    obtain ⟨rfl, -⟩ := htop
    by_cases hkind : b = b'
    · subst hkind
      cases houter with
      | nil =>
        rw [segmentsFrom_ends, segmentsFrom_ends, ← Text.squeeze_reverse]
        exact (h _ _ [] .nil).map fun _ _ hsegs => .group hsegs
      | cons htop houter =>
        rw [segmentsFrom_leaves (List.cons_ne_nil _ _), segmentsFrom_leaves (List.cons_ne_nil _ _),
          ← Text.squeeze_cons (isBlank_closer b)]
        exact h _ _ (b.closer :: held) (.cons htop houter)
    · rw [segmentsFrom_unmatched hkind, segmentsFrom_unmatched hkind]
      exact .error (.unexpectedCloser hmoves)

end CutAlike

theorem cutAlike (before text : List Char) :
    CutAlike (before ++ text) before.length (squeeze before).length text := by
  induction text generalizing before with
  | nil =>
    rw [List.append_nil]
    exact cutAlike_nil before
  | cons c text ih =>
    have hnext := ih (before ++ [c])
    rw [List.append_assoc, List.singleton_append, List.length_append, List.length_singleton,
      Text.squeeze_append] at hnext
    have hnil : squeeze [] = [] := rfl
    cases hb : isBlank c with
    | true =>
      rw [Text.squeeze_cons_blank hb, hnil, List.append_nil] at hnext
      exact .blank hb hnext
    | false =>
      have hmoves : Text.Moves (before ++ c :: text) c before.length (squeeze before).length :=
        ⟨before, text, rfl, rfl, rfl⟩
      rw [Text.squeeze_cons hb, hnil, List.length_append, List.length_singleton] at hnext
      cases hm : mark c with
      | plain => exact .plain hb hm hnext
      | opener b =>
        obtain rfl := eq_opener_of_mark hm
        exact .opener hmoves hnext
      | closer b =>
        obtain rfl := eq_closer_of_mark hm
        exact .closer hmoves hnext

theorem segments_squeeze (text : List Char) :
    Parallel (Fault.Squeezed text) Squeezed (segments text) (segments (squeeze text)) :=
  cutAlike [] text [] [] [] .nil

end Bracket

-- ---------------------------------------------------------------------------
-- Reading
-- ---------------------------------------------------------------------------

namespace Parser

open Text (squeeze)

variable {p : Parser}

theorem read_blank {v : Vocabulary} (h : Text.isBlankText text = true) :
    Token.read v text = [] := by
  rw [Token.read, Text.squeeze_eq_nil.mpr h, Token.readFrom]
  rfl

theorem flatten_mapM_cons {f : α → Except ε (List β)} (a : α) (l : List α) :
    List.flatten <$> (a :: l).mapM f =
      f a >>= fun bs => (bs ++ ·) <$> (List.flatten <$> l.mapM f) := by
  rw [List.mapM_cons]
  cases f a with
  | error e => rfl
  | ok bs => cases l.mapM f <;> rfl

theorem segmentParts_squeeze {read : List Char → Except ParseError Expr}
    (h : ∀ argument ∈ Bracket.arguments inside, read (squeeze argument) = read argument) :
    p.segmentParts read (.group b n (squeeze inside)) =
      p.segmentParts read (.group b' n' inside) := by
  have hmap : (Bracket.arguments (squeeze inside)).mapM read =
      (Bracket.arguments inside).mapM read := by
    rw [Bracket.arguments_squeeze, List.mapM_map]
    exact mapM_congr h
  rw [segmentParts, segmentParts, hmap]

theorem parts_squeeze (p : Parser) {read : List Char → Except ParseError Expr}
    (h : Bracket.Squeezed segs segs')
    (hread : ∀ b n inside, .group b n inside ∈ segs →
      ∀ argument ∈ Bracket.arguments inside, read (squeeze argument) = read argument) :
    List.flatten <$> segs'.mapM (p.segmentParts read) =
      List.flatten <$> segs.mapM (p.segmentParts read) := by
  induction h with
  | nil => rfl
  | blank hb _ ih =>
    rw [flatten_mapM_cons, segmentParts, read_blank hb, List.map_nil, ok_bind,
      ih fun b n inside hg => hread b n inside (List.mem_cons_of_mem _ hg)]
    exact (id_map' _).symm
  | @plain _ _ _ text _ _ ih =>
    have htokens : Token.read p.vocabulary (squeeze text) = Token.read p.vocabulary text := by
      rw [Token.read, Token.read, Text.squeeze_squeeze]
    rw [flatten_mapM_cons, flatten_mapM_cons, segmentParts, segmentParts, htokens,
      ih fun b n inside hg => hread b n inside (List.mem_cons_of_mem _ hg)]
  | group _ ih =>
    rw [flatten_mapM_cons, flatten_mapM_cons,
      segmentParts_squeeze (hread _ _ _ List.mem_cons_self),
      ih fun b n inside hg => hread b n inside (List.mem_cons_of_mem _ hg)]

theorem readAt_squeeze (hs : Bracket.segments text = .ok segs) :
    p.readAt shown room depth (squeeze text) = p.readAt shown room depth text := by
  induction room generalizing depth text segs with
  | zero => rfl
  | succ room ih =>
    cases hdeep : p.options.isTooDeep depth with
    | true => rw [readAt, if_pos hdeep, readAt, if_pos hdeep]
    | false =>
      have hsqueezed := Bracket.segments_squeeze text
      rw [hs] at hsqueezed
      cases hs' : Bracket.segments (squeeze text) with
      | error => rw [hs'] at hsqueezed; cases hsqueezed
      | ok segs' =>
        rw [hs'] at hsqueezed
        obtain hsegs | _ := hsqueezed
        have hread : ∀ b n inside, .group b n inside ∈ segs →
            ∀ argument ∈ Bracket.arguments inside,
              p.readAt shown room (depth + 1) (squeeze argument) =
                p.readAt shown room (depth + 1) argument := by
          intro b n inside hg argument ha
          have hwhole := (Bracket.Within.argument hs hg ha).whole
          obtain ⟨_, hargument⟩ := Bracket.segments_isOk_iff.mpr hwhole.1.weaken
          exact ih hargument
        have hparts := congrArg (· >>= Part.reduceWithin (shown depth) p.options)
          (parts_squeeze p hsegs hread)
        rw [readAt_of_segments hdeep hs, readAt_of_segments hdeep hs']
        simpa only [bind_map_left] using hparts

end Parser

inductive ParseError.Squeezed (text : List Char) : ParseError → ParseError → Prop
  | bracket : f.Squeezed text f' → Squeezed text (.bracket f) (.bracket f')
  | other : err.fault? = none → Squeezed text err err

theorem Parser.readWithin_squeeze (l : Limits) (p : Parser) (text : List Char) :
    Parallel (ParseError.Squeezed text) (· = ·) (p.readWithin l text)
      (p.readWithin l (Text.squeeze text)) := by
  cases hs : Bracket.segments text with
  | ok segs =>
    rw [readWithin, readWithin, readAt_squeeze hs]
    cases hr : p.readAt l.shown l.brackets 0 text with
    | ok e => exact .ok rfl
    | error err =>
      exact .error (.other (fault?_of_readAt hs hr))
  | error f =>
    rcases Nat.eq_zero_or_pos l.brackets with hl | hl
    · simp only [readWithin, hl, readAt, p.options.isTooDeep_zero]
      exact .error (.other rfl)
    have hfault := Bracket.segments_squeeze text
    rw [hs] at hfault
    cases hs' : Bracket.segments (Text.squeeze text) with
    | ok => rw [hs'] at hfault; cases hfault
    | error f' =>
      rw [hs'] at hfault
      obtain _ | hfault := hfault
      rw [(p.readWithin_eq_fault_iff hl text f).mpr hs,
        (p.readWithin_eq_fault_iff hl _ f').mpr hs']
      exact .error (.bracket hfault)

/-- With or without its blanks, a formula has the same tree or the same error, within whatever
limits it is read. A bracket fault is at the same characters, wherever these stand then. -/
theorem blanks_do_not_matter (o : Options) (text : String) :
    (∃ l : Parser.Limits, l.Govern) ∧
    ∀ l, Parallel (ParseError.Squeezed text.toList) (· = ·) (parseWithin l o text.toList)
      (parseWithin l o (Text.squeeze text.toList)) := by
  refine ⟨Parser.exists_govern, fun l => ?_⟩
  rw [parseWithin, parseWithin, Parser.ofOptions]
  cases hcheck : checkDeclarations o.variableNames o.functions.signatures with
  | error err =>
    have hother := (ofDeclarations_of_checkDeclarations hcheck).isOfBrackets_eq
    exact .error (.other (ParseError.fault?_eq_none hother))
  | ok => exact Parser.readWithin_squeeze l _ text.toList

end Formula
