import Formula.Proofs.Faults

/-!
# The limit of depth

How deep the arguments of a text are nested decides whether the limit is met. A text within it
is read as under any greater limit. A text beyond it is refused, and when nothing else is wrong
with it, then for its depth, which is one more than the limit.
-/

namespace Formula

-- ---------------------------------------------------------------------------
-- Arguments within arguments
-- ---------------------------------------------------------------------------

namespace Bracket

def Segment.arguments : Segment → List (List Char)
  | .plain .. => []
  | .group _ _ inside => Bracket.arguments inside

def allArguments (text : List Char) : List (List Char) :=
  match segments text with
  | .error _ => []
  | .ok segs => segs.flatMap Segment.arguments

theorem mem_allArguments (h : segments text = .ok segs) :
    argument ∈ allArguments text ↔ ∃ seg ∈ segs, argument ∈ seg.arguments := by
  rw [allArguments, h, List.mem_flatMap]

theorem length_lt_of_mem_allArguments (h : argument ∈ allArguments text) :
    argument.length < text.length := by
  cases hs : segments text with
  | error f => simp [allArguments, hs] at h
  | ok segs =>
    obtain ⟨seg, hseg, ha⟩ := (mem_allArguments hs).mp h
    cases seg with
    | plain => cases ha
    | group b n inside =>
      exact Nat.lt_of_le_of_lt (infix_of_mem_arguments ha).length_le (length_group hs hseg)

/-- How deep arguments are nested in a text: not at all where no group has an argument, and
otherwise one level more than in the argument where they are nested the deepest. -/
def argumentDepth (text : List Char) : Nat :=
  match ((allArguments text).attach.map fun ⟨argument, _⟩ => argumentDepth argument).max? with
  | none => 0
  | some depth => depth + 1
termination_by text.length
decreasing_by exact length_lt_of_mem_allArguments ‹_›

theorem argumentDepth_eq (text : List Char) :
    argumentDepth text = (((allArguments text).map argumentDepth).max?.map (· + 1)).getD 0 := by
  rw [argumentDepth, List.map_subtype (g := argumentDepth) (fun _ _ => rfl), List.unattach_attach]
  cases ((allArguments text).map argumentDepth).max? <;> rfl

theorem lt_argumentDepth_iff :
    depth < argumentDepth text ↔
      ∃ argument ∈ allArguments text, depth ≤ argumentDepth argument := by
  rw [argumentDepth_eq]
  cases hmax : ((allArguments text).map argumentDepth).max? with
  | none =>
    have hnil : allArguments text = [] := List.map_eq_nil_iff.mp (List.max?_eq_none_iff.mp hmax)
    simp [hnil]
  | some deepest =>
    obtain ⟨hmem, hle⟩ := List.max?_eq_some_iff.mp hmax
    obtain ⟨argument, ha, rfl⟩ := List.mem_map.mp hmem
    simp only [Option.map_some, Option.getD_some, Nat.lt_succ_iff]
    constructor
    · intro h
      exact ⟨argument, ha, h⟩
    · rintro ⟨argument', ha', h⟩
      exact Nat.le_trans h (hle _ (List.mem_map_of_mem ha'))

theorem argumentDepth_lt (h : argument ∈ allArguments text) :
    argumentDepth argument < argumentDepth text :=
  lt_argumentDepth_iff.mpr ⟨argument, h, Nat.le_refl _⟩

end Bracket

-- ---------------------------------------------------------------------------
-- Reading
-- ---------------------------------------------------------------------------

namespace Parser

variable {p q : Parser} {read : List Char → Except ParseError Expr}

theorem SegmentRead.exists_tree (h : SegmentRead p P seg parts) (ha : argument ∈ seg.arguments) :
    ∃ e, P argument e := by
  cases h with
  | plain => cases ha
  | group hes =>
    obtain ⟨e, -, he⟩ := exists_of_mem_left hes ha
    exact ⟨e, he⟩

theorem exists_tree_of_segments (hs : Bracket.segments text = .ok segs)
    (hparts : List.Forall₂ (SegmentRead p P) segs parts)
    (ha : argument ∈ Bracket.allArguments text) : ∃ e, P argument e := by
  obtain ⟨seg, hseg, ha⟩ := (Bracket.mem_allArguments hs).mp ha
  obtain ⟨_, -, hread⟩ := exists_of_mem_left hparts hseg
  exact hread.exists_tree ha

theorem exists_argument_eq_error (hs : Bracket.segments text = .ok segs)
    (h : segs.mapM (p.segmentParts read) = .error err) :
    ∃ argument ∈ Bracket.allArguments text, read argument = .error err := by
  obtain ⟨seg, hseg, h⟩ := exists_of_mapM_eq_error h
  obtain ⟨b, n, inside, rfl, argument, ha, h⟩ := exists_of_segmentParts_eq_error h
  exact ⟨argument, (Bracket.mem_allArguments hs).mpr ⟨_, hseg, ha⟩, h⟩

theorem mapM_eq_error (err : ParseError) (hs : Bracket.segments text = .ok segs)
    (hall : ∀ argument ∈ Bracket.allArguments text, ∀ e, read argument = .error e → e = err)
    (hsome : ∃ argument ∈ Bracket.allArguments text, read argument = .error err) :
    segs.mapM (p.segmentParts read) = .error err := by
  cases h : segs.mapM (p.segmentParts read) with
  | ok parts =>
    obtain ⟨argument, ha, herr⟩ := hsome
    have hparts := (mapM_eq_ok.mp h).imp fun _ _ => segmentParts_eq_ok.mp
    obtain ⟨e, he⟩ := exists_tree_of_segments hs hparts ha
    rw [herr] at he
    cases he
  | error e =>
    obtain ⟨argument, ha, herr⟩ := exists_argument_eq_error hs h
    rw [hall argument ha e herr]

/-- An error about the depth names the first depth that is too great, and a group of the text
is nested as deep. -/
theorem tooDeep_of_readAt (h : p.readAt shown room depth text = .error (.tooDeep found limit)) :
    limit = p.options.maxDepth ∧ p.options.isTooDeep found = true ∧
      found ≤ depth + Bracket.argumentDepth text ∧
      ∀ n, depth ≤ n → n < found → p.options.isTooDeep n = false := by
  induction room generalizing depth text with
  | zero =>
    rw [readAt] at h
    split at h
    · rename_i hdeep
      cases h
      exact ⟨rfl, hdeep, Nat.le_add_right _ _, fun n hn hlt => absurd hlt (Nat.not_lt.mpr hn)⟩
    · cases h
  | succ room ih =>
    cases hdeep : p.options.isTooDeep depth with
    | true =>
      rw [readAt, if_pos hdeep] at h
      cases h
      exact ⟨rfl, hdeep, Nat.le_add_right _ _, fun n hn hlt => absurd hlt (Nat.not_lt.mpr hn)⟩
    | false =>
      cases hs : Bracket.segments text with
      | error f =>
        rw [readAt_of_fault hdeep hs] at h
        cases h
      | ok segs =>
        rw [readAt_of_segments hdeep hs, bind_eq_error] at h
        obtain h | ⟨_, -, h⟩ := h
        · obtain ⟨argument, ha, h⟩ := exists_argument_eq_error hs h
          obtain ⟨hmax, hfound, hle, hfirst⟩ := ih h
          have hlt := Bracket.argumentDepth_lt ha
          refine ⟨hmax, hfound, by omega, fun n hn hlt => ?_⟩
          obtain rfl | hn := Nat.eq_or_lt_of_le hn
          · exact hdeep
          · exact hfirst n hn hlt
        · obtain hexhausted | hother := Part.eq_exhausted_or_of_reduceWithin h
          · cases hexhausted
          · cases hother

section Limits

variable (hvocabulary : q.vocabulary = p.vocabulary)
  (hreduce : Part.reduce q.options = Part.reduce p.options)

include hvocabulary hreduce

theorem readAt_within
    (hp : p.options.isTooDeep (depth + Bracket.argumentDepth text) = false)
    (hq : q.options.isTooDeep (depth + Bracket.argumentDepth text) = false) :
    q.readAt shown room depth text = p.readAt shown room depth text := by
  induction room generalizing depth text with
  | zero =>
    simp [readAt, Options.isTooDeep_of_le (Nat.le_add_right _ _) hp,
      Options.isTooDeep_of_le (Nat.le_add_right _ _) hq]
  | succ room ih =>
    have hpdeep : p.options.isTooDeep depth = false :=
      Options.isTooDeep_of_le (Nat.le_add_right _ _) hp
    have hqdeep : q.options.isTooDeep depth = false :=
      Options.isTooDeep_of_le (Nat.le_add_right _ _) hq
    cases hs : Bracket.segments text with
    | error f => rw [readAt_of_fault hpdeep hs, readAt_of_fault hqdeep hs]
    | ok segs =>
      have hparts : ∀ seg ∈ segs, q.segmentParts (q.readAt shown room (depth + 1)) seg =
          p.segmentParts (p.readAt shown room (depth + 1)) seg := by
        intro seg hseg
        cases seg with
        | plain => simp only [segmentParts, hvocabulary]
        | group b n inside =>
          have hinside : (Bracket.arguments inside).mapM (q.readAt shown room (depth + 1)) =
              (Bracket.arguments inside).mapM (p.readAt shown room (depth + 1)) := by
            refine mapM_congr fun argument ha => ?_
            have hlt := Bracket.argumentDepth_lt ((Bracket.mem_allArguments hs).mpr ⟨_, hseg, ha⟩)
            have hle : depth + 1 + Bracket.argumentDepth argument ≤
                depth + Bracket.argumentDepth text := by omega
            exact ih (Options.isTooDeep_of_le hle hp) (Options.isTooDeep_of_le hle hq)
          simp only [segmentParts, hinside]
      rw [readAt_of_segments hpdeep hs, readAt_of_segments hqdeep hs, mapM_congr hparts]
      simp only [Part.reduceWithin, hreduce]

theorem readAt_beyond (hle : p.options.isTooDeep limit = false)
    (hlt : p.options.isTooDeep (limit + 1) = true) (hq : q.options.isTooDeep limit = false)
    (hdepth : depth ≤ limit) (hbeyond : limit < depth + Bracket.argumentDepth text)
    (h : q.readAt shown room depth text = .ok t) :
    p.readAt shown room depth text = .error (.tooDeep (limit + 1) p.options.maxDepth) := by
  induction room generalizing depth text t with
  | zero =>
    rw [readAt] at h
    split at h <;> cases h
  | succ room ih =>
    obtain ⟨-, hs, hparts, -⟩ := readAt_succ_eq_ok.mp h
    have hread : ∀ argument ∈ Bracket.allArguments text,
        ∃ e, q.readAt shown room (depth + 1) argument = .ok e :=
      fun _ ha => exists_tree_of_segments hs hparts ha
    -- Every argument is either beyond the limit too, or it is read.
    have hdeeper : ∀ argument ∈ Bracket.allArguments text,
        limit < depth + 1 + Bracket.argumentDepth argument →
          p.readAt shown room (depth + 1) argument =
            .error (.tooDeep (limit + 1) p.options.maxDepth) := by
      intro argument ha hbeyond
      obtain ⟨e, he⟩ := hread argument ha
      obtain rfl | hdepth := Nat.eq_or_lt_of_le hdepth
      · unfold readAt
        rw [if_pos hlt]
      · exact ih hdepth hbeyond he
    have hwithin : ∀ argument ∈ Bracket.allArguments text,
        depth + 1 + Bracket.argumentDepth argument ≤ limit →
          ∃ e, p.readAt shown room (depth + 1) argument = .ok e := by
      intro argument ha hshallow
      obtain ⟨e, he⟩ := hread argument ha
      rw [readAt_within hvocabulary hreduce (Options.isTooDeep_of_le hshallow hle)
        (Options.isTooDeep_of_le hshallow hq)] at he
      exact ⟨e, he⟩
    have hdeepest : ∃ argument ∈ Bracket.allArguments text,
        limit < depth + 1 + Bracket.argumentDepth argument := by
      have hlt : limit - depth < Bracket.argumentDepth text := by omega
      obtain ⟨argument, ha, hle⟩ := Bracket.lt_argumentDepth_iff.mp hlt
      exact ⟨argument, ha, by omega⟩
    rw [readAt_of_segments (Options.isTooDeep_of_le hdepth hle) hs,
      mapM_eq_error (.tooDeep (limit + 1) p.options.maxDepth) hs ?_ ?_]
    · rfl
    · intro argument ha err herr
      by_cases hshallow : depth + 1 + Bracket.argumentDepth argument ≤ limit
      · obtain ⟨e, he⟩ := hwithin argument ha hshallow
        rw [he] at herr
        cases herr
      · rw [hdeeper argument ha (by omega)] at herr
        exact (Except.error.inj herr).symm
    · obtain ⟨argument, ha, hbeyond⟩ := hdeepest
      exact ⟨argument, ha, hdeeper argument ha hbeyond⟩

end Limits

end Parser

-- ---------------------------------------------------------------------------
-- Formulas
-- ---------------------------------------------------------------------------

def Options.limitedTo (o : Options) (m : Number) (hm : m.less? (.whole 1) = some false) : Options :=
  { o with maxDepth := m, maxDepth_pos := hm }

section Formulas

variable {l : Parser.Limits} {o : Options} {limit : Nat} {m : Number}
  {hm : m.less? (.whole 1) = some false}

theorem Options.isTooDeep_whole {limit : Int} (h : o.maxDepth.whole? = some limit) (n : Nat) :
    o.isTooDeep n = decide (limit < n) := by
  unfold isTooDeep
  cases hmax : o.maxDepth <;> rw [hmax] at h <;> cases h <;> simp [Number.less?, Number.whole?]

theorem Options.isTooDeep_limitedTo (h : m.less? (.whole limit) = some false) :
    (o.limitedTo m hm).isTooDeep limit = false := by
  rw [isTooDeep, limitedTo, h]
  rfl

theorem parseWithin_of_error
    (h : checkDeclarations o.variableNames o.functions.signatures = .error err) :
    parseWithin l o text = .error err := by
  rw [parseWithin, Parser.ofOptions, h]
  rfl

theorem readAt_of_parseWithin (h : parseWithin l o text = .error (.tooDeep depth m)) :
    (Parser.mk o o.vocabulary).readAt l.shown l.brackets 0 text = .error (.tooDeep depth m) := by
  cases hcheck : checkDeclarations o.variableNames o.functions.signatures with
  | ok => rwa [parseWithin_of_check hcheck] at h
  | error err =>
    rw [parseWithin_of_error hcheck] at h
    cases h
    exact nomatch ofDeclarations_of_checkDeclarations hcheck

theorem parseWithin_within (hp : o.isTooDeep (Bracket.argumentDepth text) = false)
    (hq : (o.limitedTo m hm).isTooDeep (Bracket.argumentDepth text) = false) :
    parseWithin l (o.limitedTo m hm) text = parseWithin l o text := by
  cases hcheck : checkDeclarations o.variableNames o.functions.signatures with
  | error err =>
    have hcheck' : checkDeclarations (o.limitedTo m hm).variableNames
        (o.limitedTo m hm).functions.signatures = .error err := hcheck
    rw [parseWithin_of_error hcheck, parseWithin_of_error hcheck']
  | ok =>
    have hcheck' : checkDeclarations (o.limitedTo m hm).variableNames
        (o.limitedTo m hm).functions.signatures = .ok () := hcheck
    rw [parseWithin_of_check hcheck, parseWithin_of_check hcheck']
    refine Parser.readAt_within (p := ⟨o, o.vocabulary⟩) (q := ⟨o.limitedTo m hm, _⟩) rfl rfl ?_ ?_
    · rwa [Nat.zero_add]
    · rwa [Nat.zero_add]

theorem parseWithin_beyond (hle : o.isTooDeep limit = false)
    (hlt : o.isTooDeep (limit + 1) = true) (hq : (o.limitedTo m hm).isTooDeep limit = false)
    (hbeyond : limit < Bracket.argumentDepth text)
    (h : parseWithin l (o.limitedTo m hm) text = .ok t) :
    parseWithin l o text = .error (.tooDeep (limit + 1) o.maxDepth) := by
  obtain ⟨hcheck, hread⟩ := parseWithin_eq_ok.mp h
  have hcheck : checkDeclarations o.variableNames o.functions.signatures = .ok () := hcheck
  rw [parseWithin_of_check hcheck]
  refine Parser.readAt_beyond (p := ⟨o, o.vocabulary⟩) (q := ⟨o.limitedTo m hm, _⟩) rfl rfl hle hlt
    hq (Nat.zero_le _) ?_ hread
  rwa [Nat.zero_add]

/-- The limit is exact, and it does nothing else. Whatever the number of levels that can be read,
a text whose arguments are nested no deeper than the limit is never refused for its depth and
has the same outcome under every limit that is not less. Any other text is refused. If it is
refused for a depth, it is the one right after the limit, and so it is whenever the text has a
tree under a limit that is not less. -/
theorem depth_limit_is_exact (o : Options) (limit : Nat)
    (hlimit : o.maxDepth.whole? = some (limit : Int)) :
    (∃ l : Parser.Limits, l.Govern) ∧
    ∀ (l : Parser.Limits) (text : List Char),
      (Bracket.argumentDepth text ≤ limit →
        (∀ depth m, parseWithin l o text ≠ .error (.tooDeep depth m)) ∧
        ∀ m hm, m.less? (.whole limit) = some false →
          parseWithin l (o.limitedTo m hm) text = parseWithin l o text) ∧
      (limit < Bracket.argumentDepth text →
        (∃ err, parseWithin l o text = .error err) ∧
        (∀ depth m, parseWithin l o text = .error (.tooDeep depth m) →
          depth = limit + 1 ∧ m = o.maxDepth) ∧
        ∀ m hm t, m.less? (.whole limit) = some false →
          parseWithin l (o.limitedTo m hm) text = .ok t →
            parseWithin l o text = .error (.tooDeep (limit + 1) o.maxDepth)) := by
  have hdeep := Options.isTooDeep_whole hlimit
  have hle : o.isTooDeep limit = false := by simp [hdeep]
  have hlt : o.isTooDeep (limit + 1) = true := by simp only [hdeep, decide_eq_true_eq]; omega
  refine ⟨Parser.exists_govern, fun l text => ⟨fun hwithin => ⟨?_, ?_⟩, fun hmore => ⟨?_, ?_, ?_⟩⟩⟩
  · intro depth m h
    obtain ⟨-, hfound, hmost, -⟩ := Parser.tooDeep_of_readAt (readAt_of_parseWithin h)
    simp only [hdeep, decide_eq_true_eq] at hfound
    omega
  · intro m hm hless
    exact parseWithin_within (Options.isTooDeep_of_le hwithin hle)
      (Options.isTooDeep_of_le hwithin (Options.isTooDeep_limitedTo hless))
  · cases h : parseWithin l o text with
    | error err => exact ⟨err, rfl⟩
    | ok t =>
      -- The limit itself is one that is not less.
      have hsame : parseWithin l (o.limitedTo o.maxDepth o.maxDepth_pos) text = .ok t := h
      have herror := parseWithin_beyond hle hlt hle hmore hsame
      rw [h] at herror
      cases herror
  · intro depth m h
    obtain ⟨hmax, hfound, -, hfirst⟩ := Parser.tooDeep_of_readAt (readAt_of_parseWithin h)
    simp only [hdeep, decide_eq_true_eq, decide_eq_false_iff_not] at hfound hfirst
    have hnot := hfirst (depth - 1) (Nat.zero_le _)
    exact ⟨by omega, hmax⟩
  · intro m hm t hless h
    exact parseWithin_beyond hle hlt (Options.isTooDeep_limitedTo hless) hmore h

end Formulas

theorem depth_limit_is_exact_nested :
    let o : Options := { maxDepth := .whole 1 }
    (∃ t, parse o "sin(x () [ ])" = .ok t ∧ parse (o.limitedTo (.whole 3) rfl) "sin(x () [ ])" =
      .ok t) ∧ parse o "sin([x])" = .error (.tooDeep 2 (.whole 1)) := by
  intro o
  obtain ⟨-, hexact⟩ := depth_limit_is_exact o 1 rfl
  obtain ⟨hwithin, -⟩ := hexact Parser.limits "sin(x () [ ])".toList
  obtain ⟨-, hbeyond⟩ := hexact Parser.limits "sin([x])".toList
  obtain ⟨t, ht⟩ := exists_of_isOk (show (parse o "sin(x () [ ])").isOk = true by decide +kernel)
  obtain ⟨u, hu⟩ := exists_of_isOk
    (show (parse (o.limitedTo (.whole 2) rfl) "sin([x])").isOk = true by decide +kernel)
  have hsame := (hwithin (by decide +kernel)).2 (.whole 3) rfl rfl
  have hrefused := (hbeyond (by decide +kernel)).2.2 (.whole 2) rfl u rfl hu
  exact ⟨⟨t, ht, hsame.trans ht⟩, hrefused⟩

end Formula
