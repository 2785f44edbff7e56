import Formula.Proofs.Inside
import Mathlib.Data.List.Chain

/-!
# Cutting a text at its brackets

A text whose brackets pair up by kind is cut into stretches without brackets and groups, each at its
own place. Any other text has a first bracket that closes nothing, so that no continuation would
pair the brackets up, or brackets that are still open at its end.
-/

namespace Formula.Bracket

-- ---------------------------------------------------------------------------
-- Segments at their places
-- ---------------------------------------------------------------------------

def Segment.position : Segment → Nat
  | .plain position _ => position
  | .group _ position _ => position

def Segment.isPlain : Segment → Bool
  | .plain .. => true
  | .group .. => false

/-- The segments of a text whose first character is at `start`: they are the text again, each is
where its position says, and stretches without brackets are as long as they can be. -/
structure Partition (start : Nat) (text : List Char) (segs : List Segment) : Prop where
  source : segs.flatMap Segment.source = text
  placed : ∀ before seg after, segs = before ++ seg :: after →
    seg.position = start + (before.flatMap Segment.source).length
  proper : ∀ seg ∈ segs, seg.Proper
  nonempty : ∀ position, .plain position [] ∉ segs
  apart : segs.IsChain fun seg next => seg.isPlain = true → next.isPlain = false

section

variable {text rest held inside : List Char} {segs : List Segment} {start : Nat}

theorem partition_nil (start : Nat) : Partition start [] [] :=
  ⟨rfl, by simp, nofun, nofun, .nil⟩

namespace Partition

theorem cons {seg : Segment} (hposition : seg.position = start) (hproper : seg.Proper)
    (hne : ∀ position, seg ≠ .plain position [])
    (hapart : seg.isPlain = true → ∀ next ∈ segs.head?, next.isPlain = false)
    (h : Partition (start + seg.source.length) rest segs) :
    Partition start (seg.source ++ rest) (seg :: segs) where
  source := by rw [List.flatMap_cons, h.source]
  placed := by
    refine forall_split_cons.mpr ⟨hposition, fun before seg' after hsplit => ?_⟩
    rw [h.placed before seg' after hsplit, List.flatMap_cons, List.length_append, Nat.add_assoc]
  proper := List.forall_mem_cons.mpr ⟨hproper, h.proper⟩
  nonempty position hmem :=
    (List.mem_cons.mp hmem).elim (fun heq => hne position heq.symm) (h.nonempty position)
  apart := List.isChain_cons.mpr ⟨fun next hnext hplain => hapart hplain next hnext, h.apart⟩

theorem plain (hne : text ≠ []) (ht : ∀ c ∈ text, mark c = .plain)
    (hsegs : ∀ next ∈ segs.head?, next.isPlain = false)
    (h : Partition (start + text.length) rest segs) :
    Partition start (text ++ rest) (.plain start text :: segs) := by
  have hproper : (Segment.plain start text).Proper := ht
  exact cons rfl hproper (fun _ heq => hne (Segment.plain.inj heq).2) (fun _ => hsegs) h

theorem group (b : Bracket) (hi : Balanced true inside)
    (h : Partition (start + 1 + inside.length + 1) rest segs) :
    Partition start (b.opener :: (inside ++ b.closer :: rest)) (.group b start inside :: segs) := by
  have hproper : (Segment.group b start inside).Proper := hi
  have hlength : start + 1 + inside.length + 1 =
      start + (Segment.group b start inside).source.length := by
    simp only [Segment.source, List.length_cons, List.length_append, List.length_nil]
    omega
  rw [hlength] at h
  have hgroup : Partition start ((Segment.group b start inside).source ++ rest) _ :=
    cons rfl hproper (by simp) (by simp [Segment.isPlain]) h
  rwa [Segment.source, List.cons_append, List.append_assoc, List.singleton_append] at hgroup

theorem plainBefore (hheld : ∀ c ∈ held, mark c = .plain)
    (hsegs : ∀ next ∈ segs.head?, next.isPlain = false)
    (h : Partition (start + held.length) rest segs) :
    Partition start (held.reverse ++ rest)
      (Bracket.plainBefore (start + held.length) held ++ segs) := by
  by_cases hne : held = []
  · subst hne
    exact h
  · have hsingle := plainBefore_reverse (List.reverse_ne_nil_iff.mpr hne) start
    rw [List.reverse_reverse, List.length_reverse] at hsingle
    rw [← List.length_reverse] at h
    rw [hsingle]
    exact plain (List.reverse_ne_nil_iff.mpr hne) (by simpa using hheld) hsegs h

end Partition

end

theorem Balanced.exists_partition (h : Balanced commas text) (start : Nat) (held : List Char)
    (hheld : ∀ c ∈ held, mark c = .plain) :
    ∃ segs, Cut (start + held.length) [] held text segs ∧
      Partition start (held.reverse ++ text) segs := by
  -- A group is passed over as a whole, so only what is held at top level varies.
  induction h generalizing start held with
  | nil =>
    have hlast := Partition.plainBefore hheld (by simp) (partition_nil (start + held.length))
    rw [List.append_nil (plainBefore _ _)] at hlast
    exact ⟨_, .done, hlast⟩
  | @plain c _ rest hc _ _ ih =>
    obtain ⟨segs, hcut, hsegs⟩ := ih start (c :: held) (List.forall_mem_cons.mpr ⟨hc, hheld⟩)
    rw [List.reverse_cons, List.append_assoc, List.singleton_append] at hsegs
    exact ⟨segs, .plain hc hcut, hsegs⟩
  | @group inside _ rest b hi _ _ ih =>
    obtain ⟨segs, hcut, hsegs⟩ := ih (start + held.length + 1 + inside.length + 1) [] (by simp)
    exact ⟨_, .group_text hi hcut,
      .plainBefore hheld (by simp [Segment.isPlain]) (.group b hi hsegs)⟩

theorem partition_of_segments (h : segments text = .ok segs) : Partition 0 text segs := by
  obtain ⟨segs', hcut, hsegs⟩ := (balanced_of_segments h).exists_partition 0 [] (by simp)
  obtain rfl := Except.ok.inj (h.symm.trans (segments_eq_ok.mpr hcut))
  exact hsegs

-- ---------------------------------------------------------------------------
-- Brackets that are open
-- ---------------------------------------------------------------------------

/-- What was read of a text leaves some brackets open, the last one first, each with the number of
characters before it. -/
inductive Opened : List (Bracket × Nat) → List Char → Prop
  | nil : Balanced true text → Opened [] text
  | cons : Opened outer before → Balanced true inside →
      Opened ((b, before.length) :: outer) (before ++ b.opener :: inside)

def Begins (text : List Char) : Prop := ∃ rest, Balanced true (text ++ rest)

namespace Opened

theorem append (h : Opened opened text) (hrest : Balanced true rest) :
    Opened opened (text ++ rest) := by
  cases h with
  | nil h => exact .nil (h.append hrest)
  | cons h hi =>
    rw [List.append_assoc, List.cons_append]
    exact .cons h (hi.append hrest)

theorem opens (h : Opened opened text) (b : Bracket) :
    Opened ((b, text.length) :: opened) (text ++ [b.opener]) := .cons h .nil

theorem closes (h : Opened ((b, start) :: outer) text) : Opened outer (text ++ [b.closer]) := by
  cases h with
  | cons h hi =>
    rw [List.append_assoc, List.cons_append]
    exact h.append (.group b hi .nil)

theorem begins (h : Opened opened text) : Begins text := by
  induction opened generalizing text with
  | nil =>
    cases h with
    | nil h => exact ⟨[], by rwa [List.append_nil]⟩
  | cons top outer ih =>
    obtain ⟨rest, hrest⟩ := ih h.closes
    exact ⟨top.1.closer :: rest, by rwa [List.append_assoc] at hrest⟩

end Opened

-- ---------------------------------------------------------------------------
-- Faults
-- ---------------------------------------------------------------------------

/-- The rest of a text ends in a fault. There is one rule for each thing that the next character can
do, and one for the end of the text. -/
inductive Fails : Nat → List (Bracket × Nat) → List Char → Fault → Prop
  | stray : Fails n [] (b.closer :: rest) (.unexpectedCloser b n)
  | unmatched : b ≠ b' → Fails n ((b', start) :: outer) (b.closer :: rest) (.unexpectedCloser b n)
  | unclosed : Fails n ((b, start) :: outer) [] (.unclosed b start n)
  | plain : mark c = .plain → Fails (n + 1) opened rest fault → Fails n opened (c :: rest) fault
  | opens : Fails (n + 1) ((b, n) :: opened) rest fault → Fails n opened (b.opener :: rest) fault
  | closes : Fails (n + 1) outer rest fault → Fails n ((b, start) :: outer) (b.closer :: rest) fault

theorem fails_of_segmentsFrom (h : segmentsFrom n opened held text = .error fault) :
    Fails n opened text fault := by
  fun_induction segmentsFrom n opened held text with
  | case1 => cases h
  | case2 => cases h; exact .unclosed
  | case3 _ _ _ _ _ hc ih => exact .plain hc (ih h)
  | case4 _ _ _ _ _ hc ih =>
    obtain hl | ⟨_, _, hlater⟩ := bind_eq_error.mp h
    · rw [eq_opener_of_mark hc]
      exact .opens (ih hl)
    · cases hlater
  | case5 _ _ _ _ _ _ _ hc ih =>
    obtain rfl := eq_opener_of_mark hc
    exact .opens (ih h)
  | case6 _ _ _ _ _ hc =>
    cases h
    rw [eq_closer_of_mark hc]
    exact .stray
  | case7 _ _ _ _ _ _ hc ih =>
    obtain hl | ⟨_, _, hlater⟩ := bind_eq_error.mp h
    · rw [eq_closer_of_mark hc]
      exact .closes (ih hl)
    · cases hlater
  | case8 _ _ _ _ _ _ _ _ hc ih =>
    obtain rfl := eq_closer_of_mark hc
    exact .closes (ih h)
  | case9 _ _ _ _ _ _ _ _ hc hb =>
    cases h
    rw [eq_closer_of_mark hc]
    exact .unmatched hb

namespace Fails

theorem segmentsFrom_eq (h : Fails n opened text fault) (held : List Char) :
    segmentsFrom n opened held text = .error fault := by
  induction h generalizing held with
  | stray => exact segmentsFrom_stray
  | unmatched hb => exact segmentsFrom_unmatched hb
  | unclosed => rfl
  | plain hc _ ih => rw [segmentsFrom_plain hc, ih]
  | @opens _ _ opened _ _ _ ih =>
    cases opened with
    | nil => rw [segmentsFrom_opens, ih]; rfl
    | cons => rw [segmentsFrom_nests (List.cons_ne_nil _ _), ih]
  | @closes _ outer _ _ _ _ _ ih =>
    cases outer with
    | nil => rw [segmentsFrom_ends, ih]; rfl
    | cons => rw [segmentsFrom_leaves (List.cons_ne_nil _ _), ih]

theorem closer (hb : ∀ top ∈ opened.head?, top.1 ≠ b) (n : Nat) (rest : List Char) :
    Fails n opened (b.closer :: rest) (.unexpectedCloser b n) := by
  cases opened with
  | nil => exact .stray
  | cons top outer => exact .unmatched (hb top rfl).symm

theorem not_balanced (h : Fails 0 [] text fault) : ¬ Balanced true text := by
  intro hb
  obtain ⟨segs, hsegs⟩ := segments_isOk_iff.mpr hb
  cases hsegs.symm.trans (h.segmentsFrom_eq [])

theorem balanced (hb : Balanced commas text) (h : Fails (n + text.length) opened rest fault) :
    Fails n opened (text ++ rest) fault := by
  induction hb generalizing n opened rest with
  | nil => exact h
  | @plain c _ text hc _ _ ih =>
    refine .plain hc (ih ?_)
    rwa [Nat.add_right_comm]
  | @group inside _ text b _ _ ihi ih =>
    rw [List.cons_append, List.append_assoc, List.cons_append]
    refine .opens (ihi (.closes (ih ?_)))
    have hlength : n + 1 + inside.length + 1 + text.length =
        n + (b.opener :: (inside ++ b.closer :: text)).length := by
      simp only [List.length_cons, List.length_append]
      omega
    rwa [hlength]

end Fails

theorem Opened.fails (h : Opened opened text) (hfails : Fails text.length opened rest fault) :
    Fails 0 [] (text ++ rest) fault := by
  induction h generalizing rest with
  | nil hb => exact .balanced hb (by rwa [Nat.zero_add])
  | @cons outer before inside b _ hi ih =>
    rw [List.append_assoc, List.cons_append]
    refine ih (.opens (.balanced hi ?_))
    have hlength : before.length + 1 + inside.length = (before ++ b.opener :: inside).length := by
      simp only [List.length_cons, List.length_append]
      omega
    rwa [hlength]

inductive Fault.Ends : Fault → List Char → Prop
  | unexpectedCloser : Opened opened before → (∀ top ∈ opened.head?, top.1 ≠ b) →
      Ends (.unexpectedCloser b before.length) (before ++ b.closer :: rest)
  | unclosed : Opened ((b, start) :: outer) text → Ends (.unclosed b start text.length) text

theorem Fails.ends (h : Fails n opened rest fault) (hopened : Opened opened text)
    (hn : n = text.length) : fault.Ends (text ++ rest) := by
  -- Each step moves one character over to what was read; which brackets that leaves open is the
  -- invariant.
  induction h generalizing text with
  | stray =>
    subst hn
    exact .unexpectedCloser hopened (by simp)
  | unmatched hb =>
    subst hn
    exact .unexpectedCloser hopened (by simpa using hb.symm)
  | unclosed =>
    subst hn
    rw [List.append_nil]
    exact .unclosed hopened
  | @plain c _ _ _ _ hc _ ih =>
    have hplain : Balanced true [c] := .plain hc (fun _ => rfl) .nil
    have hlater := ih (hopened.append hplain) (by simp [hn])
    rwa [List.append_assoc, List.singleton_append] at hlater
  | @opens _ b _ _ _ _ ih =>
    have hlater := ih (hn ▸ hopened.opens b) (by simp [hn])
    rwa [List.append_assoc, List.singleton_append] at hlater
  | closes _ ih =>
    have hlater := ih hopened.closes (by simp [hn])
    rwa [List.append_assoc, List.singleton_append] at hlater

-- ---------------------------------------------------------------------------
-- What a fault says
-- ---------------------------------------------------------------------------

/-- A closer with which the text stops being the beginning of a balanced one. -/
def ClosesNothing (text : List Char) (b : Bracket) (position : Nat) : Prop :=
  ∃ before rest, text = before ++ b.closer :: rest ∧ before.length = position ∧
    Begins before ∧ ¬ Begins (before ++ [b.closer])

/-- An opener that no closer of its kind follows with a balanced text between them. -/
def Unmatched (text : List Char) (b : Bracket) (start : Nat) : Prop :=
  ∃ before later, text = before ++ b.opener :: later ∧ before.length = start ∧
    ∀ inside rest, later = inside ++ b.closer :: rest → ¬ Balanced true inside

/-- A text that is not balanced, but begins a balanced one, with the last opener that lacks its
closer. -/
structure LeavesOpen (text : List Char) (b : Bracket) (start length : Nat) : Prop where
  begins : Begins text
  not_balanced : ¬ Balanced true text
  unmatched : Unmatched text b start
  last : ∀ b' start', Unmatched text b' start' → start' ≤ start
  length_eq : length = text.length

theorem opener_ne_closer (b b' : Bracket) : b.opener ≠ b'.closer := by
  intro h
  have hmark := congrArg mark h
  rw [mark_opener, mark_closer] at hmark
  cases hmark

theorem Balanced.exists_closer {b : Bracket} (h : Balanced commas (before ++ b.opener :: later)) :
    ∃ inside rest, later = inside ++ b.closer :: rest ∧ Balanced true inside := by
  generalize htext : before ++ b.opener :: later = text at h
  induction h generalizing before later with
  | nil => simp at htext
  | plain hc _ _ ih =>
    cases before with
    | nil =>
      obtain ⟨rfl, -⟩ := List.cons.inj htext
      rw [mark_opener] at hc
      cases hc
    | cons _ before => exact ih (List.cons.inj htext).2
  | @group inside _ rest b' hi _ ihi ih =>
    rcases group_split htext.symm with ⟨-, hb, rfl⟩ | ⟨mid, later, rfl, rfl, rfl⟩ | ⟨-, hb, -⟩ |
      ⟨mid, rfl, rfl⟩
    · obtain rfl : b = b' := by simpa using congrArg mark hb
      exact ⟨inside, rest, rfl, hi⟩
    · obtain ⟨inner, after, rfl, hinner⟩ := ihi rfl
      exact ⟨inner, after ++ b'.closer :: rest, by simp, hinner⟩
    · exact absurd hb (opener_ne_closer b b')
    · exact ih rfl

theorem Opened.unmatched (h : Opened ((b, start) :: outer) text) : Unmatched text b start := by
  cases h with
  | @cons _ before inside _ _ hi =>
    refine ⟨before, inside, rfl, rfl, ?_⟩
    rintro inner rest rfl hinner
    exact ((Opened.nil hinner).fails .stray).not_balanced hi

theorem Opened.last (h : Opened ((b, start) :: outer) text) (hlater : Unmatched text b' start') :
    start' ≤ start := by
  cases h with
  | @cons _ before inside _ _ hi =>
    obtain ⟨before', later, hsplit, rfl, hnone⟩ := hlater
    rcases List.append_eq_append_iff.mp hsplit with ⟨mid, rfl, hmid⟩ | ⟨mid, rfl, -⟩
    · rcases List.cons_eq_append_iff.mp hmid with ⟨rfl, -⟩ | ⟨mid, -, rfl⟩
      · simp
      · obtain ⟨inner, rest, rfl, hinner⟩ := hi.exists_closer
        exact absurd hinner (hnone inner rest rfl)
    · simp

theorem Opened.not_begins (h : Opened opened before) (hb : ∀ top ∈ opened.head?, top.1 ≠ b) :
    ¬ Begins (before ++ [b.closer]) := by
  rintro ⟨rest, hrest⟩
  rw [List.append_assoc, List.singleton_append] at hrest
  exact (h.fails (.closer hb _ rest)).not_balanced hrest

/-- A text can be cut just if its brackets pair up by kind, and then its segments are a partition
of it. Otherwise the fault names the first bracket that closes nothing, or the last one that is
open at the end. -/
theorem segments_partition_or_fault (text : List Char) :
    ((∃ segs, segments text = .ok segs) ↔ Balanced true text) ∧
      match segments text with
      | .ok segs => Partition 0 text segs
      | .error (.unexpectedCloser b position) => ClosesNothing text b position
      | .error (.unclosed b start length) => LeavesOpen text b start length := by
  refine ⟨segments_isOk_iff, ?_⟩
  cases h : segments text with
  | ok segs => exact partition_of_segments h
  | error fault =>
    have hfails := fails_of_segmentsFrom h
    have hends := hfails.ends (.nil .nil) rfl
    rw [List.nil_append] at hends
    cases hends with
    | @unexpectedCloser _ before _ rest hopened hb =>
      exact ⟨before, rest, rfl, rfl, hopened.begins, hopened.not_begins hb⟩
    | unclosed hopened =>
      exact ⟨hopened.begins, hfails.not_balanced, hopened.unmatched, fun _ _ => hopened.last, rfl⟩

end Formula.Bracket
