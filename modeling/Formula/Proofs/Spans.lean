import Formula.Bracket.Arguments
import Formula.Proofs.Outcome
import Mathlib.Algebra.Group.Basic
import Mathlib.Algebra.Group.Int.Defs

/-!
# Spans

The stretches of a text that hold no brackets, at any level: the plain segments
of the text, and those of the arguments of its groups, in order. Together they
are the text without its brackets and without the commas between arguments.
-/

namespace Formula.Bracket

-- ---------------------------------------------------------------------------
-- Cutting a text at its brackets
-- ---------------------------------------------------------------------------

section Equations

variable {b : Bracket} {held rest : List Char}

theorem segmentsFrom_plain (hc : mark c = .plain) :
    segmentsFrom n opened held (c :: rest) = segmentsFrom (n + 1) opened (c :: held) rest := by
  simp [segmentsFrom, hc]

theorem segmentsFrom_opens : segmentsFrom n [] held (b.opener :: rest) =
    (plainBefore n held ++ ·) <$> segmentsFrom (n + 1) [(b, n)] [] rest := by
  simp only [segmentsFrom, mark_opener]
  cases segmentsFrom (n + 1) [(b, n)] [] rest <;> rfl

theorem segmentsFrom_nests (ho : opened ≠ []) : segmentsFrom n opened held (b.opener :: rest) =
    segmentsFrom (n + 1) ((b, n) :: opened) (b.opener :: held) rest := by
  cases opened with
  | nil => exact absurd rfl ho
  | cons => simp [segmentsFrom]

theorem segmentsFrom_ends : segmentsFrom n [(b, start)] held (b.closer :: rest) =
    (.group b start held.reverse :: ·) <$> segmentsFrom (n + 1) [] [] rest := by
  simp only [segmentsFrom, mark_closer, if_true]
  cases segmentsFrom (n + 1) [] [] rest <;> rfl

theorem segmentsFrom_leaves (ho : outer ≠ []) :
    segmentsFrom n ((b, start) :: outer) held (b.closer :: rest) =
      segmentsFrom (n + 1) outer (b.closer :: held) rest := by
  cases outer with
  | nil => exact absurd rfl ho
  | cons => simp [segmentsFrom]

theorem segmentsFrom_stray :
    segmentsFrom n [] held (b.closer :: rest) = .error (.unexpectedCloser b n) := by
  simp [segmentsFrom]

theorem segmentsFrom_unmatched (hb : b ≠ b') :
    segmentsFrom n ((b', start) :: outer) held (b.closer :: rest) =
      .error (.unexpectedCloser b n) := by
  simp [segmentsFrom, hb]

end Equations

/-- The rest of a text is cut into segments. There is one rule for each thing that
the next character can do. -/
inductive Cut : Nat → List (Bracket × Nat) → List Char → List Char → List Segment → Prop
  | done : Cut n [] held [] (plainBefore n held)
  | plain : mark c = .plain → Cut (n + 1) opened (c :: held) rest segs →
      Cut n opened held (c :: rest) segs
  | opens : Cut (n + 1) [(b, n)] [] rest segs →
      Cut n [] held (b.opener :: rest) (plainBefore n held ++ segs)
  | nests : opened ≠ [] → Cut (n + 1) ((b, n) :: opened) (b.opener :: held) rest segs →
      Cut n opened held (b.opener :: rest) segs
  | ends : Cut (n + 1) [] [] rest segs →
      Cut n [(b, start)] held (b.closer :: rest) (.group b start held.reverse :: segs)
  | leaves : outer ≠ [] → Cut (n + 1) outer (b.closer :: held) rest segs →
      Cut n ((b, start) :: outer) held (b.closer :: rest) segs

theorem eq_opener_of_mark (h : mark c = .opener b) : c = b.opener := by
  unfold mark at h
  split at h <;> cases h <;> rfl

theorem eq_closer_of_mark (h : mark c = .closer b) : c = b.closer := by
  unfold mark at h
  split at h <;> cases h <;> rfl

theorem isBlank_opener (b : Bracket) : Text.isBlank b.opener = false := by
  cases b <;> decide

theorem isBlank_closer (b : Bracket) : Text.isBlank b.closer = false := by
  cases b <;> decide

theorem mark_of_isBlank (h : Text.isBlank c = true) : mark c = .plain := by
  cases hm : mark c with
  | plain => rfl
  | opener b => rw [eq_opener_of_mark hm, isBlank_opener] at h; cases h
  | closer b => rw [eq_closer_of_mark hm, isBlank_closer] at h; cases h

theorem cut_of_segmentsFrom (h : segmentsFrom n opened held text = .ok segs) :
    Cut n opened held text segs := by
  fun_induction segmentsFrom n opened held text generalizing segs with
  | case1 => cases h; exact .done
  | case2 => cases h
  | case3 _ _ _ _ _ hc ih => exact .plain hc (ih h)
  | case4 _ _ _ _ _ hc ih =>
    obtain ⟨later, hl, h⟩ := bind_eq_ok.mp h
    cases h
    rw [eq_opener_of_mark hc]
    exact .opens (ih hl)
  | case5 _ _ _ _ _ _ _ hc ih =>
    obtain rfl := eq_opener_of_mark hc
    exact .nests nofun (ih h)
  | case6 => cases h
  | case7 _ _ _ _ _ _ hc ih =>
    obtain ⟨later, hl, h⟩ := bind_eq_ok.mp h
    cases h
    rw [eq_closer_of_mark hc]
    exact .ends (ih hl)
  | case8 _ _ _ _ _ _ _ _ hc ih =>
    obtain rfl := eq_closer_of_mark hc
    exact .leaves nofun (ih h)
  | case9 => cases h

theorem Cut.segmentsFrom_eq (h : Cut n opened held text segs) :
    segmentsFrom n opened held text = .ok segs := by
  induction h with
  | done => rfl
  | plain hc _ ih => rw [segmentsFrom_plain hc, ih]
  | opens _ ih => rw [segmentsFrom_opens, ih, ok_map]
  | nests ho _ ih => rw [segmentsFrom_nests ho, ih]
  | ends _ ih => rw [segmentsFrom_ends, ih, ok_map]
  | leaves ho _ ih => rw [segmentsFrom_leaves ho, ih]

theorem segments_eq_ok : segments text = .ok segs ↔ Cut 0 [] [] text segs :=
  ⟨cut_of_segmentsFrom, Cut.segmentsFrom_eq⟩

-- ---------------------------------------------------------------------------
-- Segments make up the text
-- ---------------------------------------------------------------------------

theorem flatMap_source_plainBefore (n : Nat) (held : List Char) :
    (plainBefore n held).flatMap Segment.source = held.reverse := by
  cases held <;> simp [plainBefore, Segment.source]

def begun (opened : List (Bracket × Nat)) (held : List Char) : List Char :=
  match opened.getLast? with
  | none => held.reverse
  | some (b, _) => b.opener :: held.reverse

theorem begun_cons (opened : List (Bracket × Nat)) (held : List Char) (c : Char)
    (rest : List Char) :
    begun opened (c :: held) ++ rest = begun opened held ++ c :: rest := by
  unfold begun
  split <;> simp

theorem begun_outer (top : Bracket × Nat) (ho : outer ≠ []) (held : List Char) :
    begun (top :: outer) held = begun outer held := by
  rw [begun, List.getLast?_cons, begun]
  cases outer with
  | nil => exact absurd rfl ho
  | cons o outer => rw [List.getLast?_cons]; rfl

theorem Cut.flatMap_source (h : Cut n opened held text segs) :
    segs.flatMap Segment.source = begun opened held ++ text := by
  induction h with
  | done => rw [flatMap_source_plainBefore, List.append_nil]; rfl
  | plain _ _ ih => rw [ih, begun_cons]
  | opens _ ih => rw [List.flatMap_append, flatMap_source_plainBefore, ih]; rfl
  | nests ho _ ih => rw [ih, begun_outer _ ho, begun_cons]
  | ends _ ih => rw [List.flatMap_cons, ih]; simp [begun, Segment.source]
  | leaves ho _ ih => rw [ih, begun_cons, begun_outer _ ho]

theorem flatMap_source_segments (h : segments text = .ok segs) :
    segs.flatMap Segment.source = text := (segments_eq_ok.mp h).flatMap_source

theorem length_group (h : segments text = .ok segs) (hs : .group b n inside ∈ segs) :
    inside.length < text.length := by
  have := (List.sublist_flatten_of_mem (List.mem_map_of_mem (f := Segment.source) hs)).length_le
  rw [← List.flatMap_def, flatMap_source_segments h] at this
  simp only [Segment.source, List.length_cons, List.length_append] at this
  omega

-- ---------------------------------------------------------------------------
-- Arguments are parts of the text
-- ---------------------------------------------------------------------------

theorem infix_of_mem_piecesFrom (h : piece ∈ piecesFrom depth held text) :
    piece <:+: held.reverse ++ text := by
  fun_induction piecesFrom depth held text with
  | case1 => rw [List.mem_singleton.mp h]; exact (List.prefix_append _ []).isInfix
  | case2 depth held c rest _ ih =>
    rcases List.mem_cons.mp h with rfl | h
    · exact (List.prefix_append _ _).isInfix
    · exact (ih h).trans ((List.suffix_cons c rest).isInfix.trans (List.suffix_append _ _).isInfix)
  | case3 depth held c rest _ ih =>
    have := ih h
    rwa [List.reverse_cons, List.append_assoc] at this

theorem infix_of_mem_arguments (h : argument ∈ arguments text) : argument <:+: text :=
  infix_of_mem_piecesFrom (List.mem_of_mem_filter h)

-- ---------------------------------------------------------------------------
-- Spans
-- ---------------------------------------------------------------------------

def spans (text : List Char) : List (List Char) :=
  match _h : segments text with
  | .error _ => []
  | .ok segs => segs.attach.flatMap fun
    | ⟨.plain _ span, _⟩ => [span]
    | ⟨.group _ _ inside, _hs⟩ =>
      (arguments inside).attach.flatMap fun ⟨argument, _⟩ => spans argument
termination_by text.length
decreasing_by
  rename_i ha
  exact Nat.lt_of_le_of_lt (infix_of_mem_arguments ha).length_le (length_group _h _hs)

def Segment.spans : Segment → List (List Char)
  | .plain _ span => [span]
  | .group _ _ inside => (arguments inside).flatMap Bracket.spans

theorem spans_of_segments (h : segments text = .ok segs) :
    spans text = segs.flatMap Segment.spans := by
  rw [spans]
  split
  · rename_i he
    rw [h] at he
    cases he
  · rename_i segs' he
    obtain rfl := Except.ok.inj (h.symm.trans he)
    rw [List.flatMap_subtype (g := Segment.spans), List.unattach_attach]
    rintro (_ | ⟨_, _, inside⟩) _
    · rfl
    · exact List.flatMap_subtype (fun _ _ => rfl) |>.trans (by rw [List.unattach_attach]; rfl)

-- ---------------------------------------------------------------------------
-- A text without its punctuation
-- ---------------------------------------------------------------------------

/-- How many more brackets a text opens than it closes. -/
def height : List Char → Int
  | [] => 0
  | c :: rest => (mark c).rise + height rest

def isPunctuation (depth : Int) (c : Char) : Bool := mark c != .plain || (c == ',' && 0 < depth)

/-- A text inside `depth` brackets without its brackets and the commas between
arguments. -/
def bareFrom (depth : Int) : List Char → List Char
  | [] => []
  | c :: rest =>
    if isPunctuation depth c then bareFrom (depth + (mark c).rise) rest
    else c :: bareFrom (depth + (mark c).rise) rest

def bare (text : List Char) : List Char := bareFrom 0 text

theorem height_cons (c : Char) (text : List Char) :
    height (c :: text) = (mark c).rise + height text := rfl

theorem height_singleton (c : Char) : height [c] = (mark c).rise := Int.add_zero _

theorem height_append (a b : List Char) : height (a ++ b) = height a + height b := by
  induction a with
  | nil => exact (Int.zero_add _).symm
  | cons c a ih => rw [List.cons_append, height_cons, height_cons, ih, add_assoc]

theorem bareFrom_append (depth : Int) (a b : List Char) :
    bareFrom depth (a ++ b) = bareFrom depth a ++ bareFrom (depth + height a) b := by
  induction a generalizing depth with
  | nil => simp [bareFrom, height]
  | cons c a ih =>
    have hdepth : depth + (mark c).rise + height a = depth + height (c :: a) := by
      rw [height_cons, add_assoc]
    simp only [List.cons_append, bareFrom, ih, hdepth]
    split <;> rfl

theorem bare_split (before after : List Char) (h : isPunctuation (height before) c = false) :
    ∃ rest, bare (before ++ c :: after) = bare before ++ c :: rest := by
  refine ⟨bareFrom (height before + (mark c).rise) after, ?_⟩
  rw [bare, bareFrom_append, zero_add, bareFrom, h]
  rfl

theorem bareFrom_sublist (depth : Int) (text : List Char) : (bareFrom depth text).Sublist text := by
  induction text generalizing depth with
  | nil => exact .slnil
  | cons c text ih =>
    rw [bareFrom]
    split
    · exact (ih _).cons c
    · exact (ih _).cons_cons c

theorem flatMap_bare_piecesFrom (depth : Int) (held text : List Char)
    (hd : height held.reverse = depth) :
    (piecesFrom depth held text).flatMap bare =
      bareFrom 0 held.reverse ++ bareFrom (depth + 1) text := by
  fun_induction piecesFrom depth held text with
  | case1 => simp [bare, bareFrom]
  | case2 depth held c rest hc ih =>
    obtain ⟨rfl, rfl⟩ := hc
    rw [List.flatMap_cons, ih rfl, bareFrom]
    rfl
  | case3 depth held c rest hc ih =>
    have hp : isPunctuation (depth + 1) c = isPunctuation depth c := by
      unfold isPunctuation
      by_cases h : c = ','
      · have hne : depth ≠ 0 := fun h0 => hc ⟨h, h0⟩
        have hlt : 0 < depth + 1 ↔ 0 < depth := by omega
        simp [h, hlt]
      · have hbeq : (c == ',') = false := beq_eq_false_iff_ne.mpr h
        simp [hbeq]
    rw [ih (by rw [List.reverse_cons, height_append, hd, height_singleton]), List.reverse_cons,
      bareFrom_append, hd, zero_add, List.append_assoc, add_right_comm]
    simp only [bareFrom, hp]
    split <;> rfl

theorem flatMap_bare_pieces (text : List Char) : (pieces text).flatMap bare = bareFrom 1 text :=
  flatMap_bare_piecesFrom 0 [] text rfl

def Segment.bare : Segment → List Char
  | .plain _ span => span
  | .group _ _ inside => bareFrom 1 inside

theorem height_reverse_cons (c : Char) (held : List Char) :
    height (c :: held).reverse = height held.reverse + (mark c).rise := by
  rw [List.reverse_cons, height_append, height_singleton]

theorem flatMap_bare_plainBefore (n : Nat) (held : List Char) :
    (plainBefore n held).flatMap Segment.bare = held.reverse := by
  cases held <;> simp [plainBefore, Segment.bare]

theorem Cut.flatMap_bare (h : Cut n opened held text segs)
    (hd : opened ≠ [] → height held.reverse + 1 = opened.length) :
    segs.flatMap Segment.bare =
      if opened = [] then held.reverse ++ bare text else bareFrom 1 (held.reverse ++ text) := by
  -- The bracket that opened a group is not among what is held, hence the height one less
  -- than the number of open brackets.
  induction h with
  | @done n held => rw [flatMap_bare_plainBefore, if_pos rfl]; exact (List.append_nil _).symm
  | @plain c n opened held rest segs hc _ ih =>
    have hrise : (mark c).rise = 0 := by rw [hc]; rfl
    rw [ih fun ho => by rw [height_reverse_cons, hrise, add_zero, hd ho]]
    have hbare : bare (c :: rest) = c :: bare rest := by
      simp [bare, bareFrom, isPunctuation, hc, Mark.rise]
    simp [hbare]
  | @opens n b rest segs held _ ih =>
    have hbare : bare (b.opener :: rest) = bareFrom 1 rest := by
      simp [bare, bareFrom, isPunctuation, Mark.rise]
    rw [List.flatMap_append, flatMap_bare_plainBefore, ih fun _ => rfl, if_pos rfl, hbare]
    rfl
  | @nests opened n b held rest segs ho _ ih =>
    have hheight : height (b.opener :: held).reverse + 1 = ((b, n) :: opened).length := by
      have := hd ho
      simp only [height_reverse_cons, mark_opener, Mark.rise, List.length_cons]
      omega
    rw [ih fun _ => hheight]
    simp [ho]
  | @ends n rest segs b start held _ ih =>
    have hheight : height held.reverse = 0 := by simpa using hd nofun
    rw [List.flatMap_cons, ih (absurd rfl), if_pos rfl, if_neg nofun, bareFrom_append, hheight]
    simp [Segment.bare, bareFrom, isPunctuation, Mark.rise, bare]
  | @leaves outer n held rest segs b start ho _ ih =>
    have hheight : height (b.closer :: held).reverse + 1 = outer.length := by
      have := hd nofun
      simp only [height_reverse_cons, mark_closer, Mark.rise, List.length_cons] at this ⊢
      omega
    rw [ih fun _ => hheight]
    simp [ho]

theorem flatMap_bare_segments (h : segments text = .ok segs) :
    segs.flatMap Segment.bare = bare text := by
  rw [(segments_eq_ok.mp h).flatMap_bare (absurd rfl), if_pos rfl]
  rfl

end Formula.Bracket
