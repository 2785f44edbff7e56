import Formula.Proofs.Inside
import Formula.Proofs.Limits
import Formula.Proofs.Readings
import Formula.Proofs.Reduction

/-!
# Where bracket faults come from

Only the brackets of the whole text can be at fault. Neither the declarations nor the
passes complain of brackets, and what stands within a text that can be cut is balanced.
So the positions in a fault are always positions in the text that is read.
-/

namespace Formula

namespace ParseError

/-- Whether an error is about brackets: a fault of theirs, or how deep they are nested. -/
def isOfBrackets : ParseError → Bool
  | .bracket _ | .tooDeep .. | .exhausted => true
  | _ => false

def fault? : ParseError → Option Bracket.Fault
  | .bracket fault => some fault
  | _ => none

theorem fault?_eq_none {err : ParseError} (h : err.isOfBrackets = false) : err.fault? = none := by
  cases err with
  | bracket => cases h
  | _ => rfl

end ParseError

-- ---------------------------------------------------------------------------
-- Errors of other kinds
-- ---------------------------------------------------------------------------

inductive ParseError.OfDeclarations : ParseError → Prop
  | invalidVariable (name : Datum) : OfDeclarations (.invalidVariable name)
  | invalidFunction (name : Datum) : OfDeclarations (.invalidFunction name)
  | unfitRange (s : Signature) : OfDeclarations (.unfitRange s)
  | invalidRange (s : Signature) : OfDeclarations (.invalidRange s)
  | declaredTwice (s : Signature) : OfDeclarations (.declaredTwice s)

theorem Name.ofDeclarations_of_check {role : Name.Role} (h : Name.check role d = .error err) :
    err.OfDeclarations := by
  unfold Name.check at h
  split at h <;> cases h
  cases role with
  | «variable» => exact .invalidVariable d
  | function => exact .invalidFunction d

theorem Signature.ofDeclarations_of_check {s : Signature} (h : s.check names = .error err) :
    err.OfDeclarations := by
  rw [Signature.check, bind_eq_error] at h
  rcases h with h | ⟨_, -, h⟩
  · exact Name.ofDeclarations_of_check h
  split at h
  · cases h; exact .unfitRange s
  · cases h; exact .invalidRange s
  · split at h <;> cases h
    exact .declaredTwice s

theorem ofDeclarations_of_checkDeclarations
    (h : checkDeclarations names signatures = .error err) : err.OfDeclarations := by
  rw [checkDeclarations, bind_eq_error] at h
  rcases h with h | ⟨_, -, h⟩
  · obtain ⟨_, -, h⟩ := exists_of_forM_eq_error h
    exact Name.ofDeclarations_of_check h
  rcases bind_eq_error.mp h with h | ⟨_, -, h⟩
  · obtain ⟨_, -, h⟩ := exists_of_forM_eq_error h
    exact Name.ofDeclarations_of_check h
  · obtain ⟨_, -, h⟩ := exists_of_forM_eq_error h
    exact Signature.ofDeclarations_of_check h

theorem ParseError.OfDeclarations.isOfBrackets_eq (h : OfDeclarations err) :
    err.isOfBrackets = false := by
  cases h <;> rfl

namespace Part

theorem Miscalled.isOfBrackets_eq (h : Miscalled err) : err.isOfBrackets = false := by
  cases h <;> rfl

theorem Refusal.isOfBrackets_eq (h : Refusal err) : err.isOfBrackets = false := by
  cases h <;> rfl

theorem isOfBrackets_of_reduce (h : reduce o ps = .error err) : err.isOfBrackets = false := by
  rw [reduce, bind_eq_error] at h
  rcases h with h | ⟨_, -, h⟩
  · rcases bind_eq_error.mp h with h | ⟨_, -, h⟩
    · exact (makeCalls_miscalled h).isOfBrackets_eq
    · cases h
  · exact (operators_refusal h).isOfBrackets_eq

theorem eq_exhausted_or_of_reduceWithin (h : reduceWithin levels o ps = .error err) :
    err = .exhausted ∨ err.isOfBrackets = false := by
  obtain ⟨raised, hraised, rfl⟩ := mapError_eq_error.mp h
  unfold ParseError.shownWithin
  split
  · exact .inr (isOfBrackets_of_reduce hraised)
  · exact .inl rfl

end Part

-- ---------------------------------------------------------------------------
-- Reading
-- ---------------------------------------------------------------------------

namespace Parser

variable {p : Parser}

theorem exists_of_segmentParts_eq_error {read : List Char → Except ParseError Expr}
    (h : p.segmentParts read seg = .error err) :
    ∃ b n inside, seg = .group b n inside ∧
      ∃ argument ∈ Bracket.arguments inside, read argument = .error err := by
  cases seg with
  | plain => cases h
  | group b n inside =>
    rcases bind_eq_error.mp h with h | ⟨_, -, h⟩
    · exact ⟨b, n, inside, rfl, exists_of_mapM_eq_error h⟩
    · cases h

theorem fault?_of_readAt (hs : Bracket.segments text = .ok segs)
    (h : p.readAt shown room depth text = .error err) : err.fault? = none := by
  induction room generalizing depth text segs with
  | zero =>
    unfold readAt at h
    split at h <;> cases h <;> rfl
  | succ room ih =>
    cases hdeep : p.options.isTooDeep depth with
    | true =>
      rw [readAt, if_pos hdeep] at h
      cases h; rfl
    | false =>
      rw [readAt_of_segments hdeep hs, bind_eq_error] at h
      rcases h with h | ⟨_, -, h⟩
      · obtain ⟨seg, hseg, h⟩ := exists_of_mapM_eq_error h
        obtain ⟨b, n, inside, rfl, argument, ha, h⟩ := exists_of_segmentParts_eq_error h
        have hwhole := (Bracket.Within.argument hs hseg ha).whole
        obtain ⟨segs', hs'⟩ := Bracket.segments_isOk_iff.mpr hwhole.1.weaken
        exact ih hs' h
      · obtain rfl | hother := Part.eq_exhausted_or_of_reduceWithin h
        · rfl
        · exact ParseError.fault?_eq_none hother

theorem readWithin_eq_fault_iff {l : Limits} (p : Parser) (hl : 0 < l.brackets) (text : List Char)
    (f : Bracket.Fault) :
    p.readWithin l text = .error (.bracket f) ↔ Bracket.segments text = .error f := by
  have hdeep := p.options.isTooDeep_zero
  obtain ⟨room, hroom⟩ := Nat.exists_eq_add_one_of_ne_zero (Nat.ne_of_gt hl)
  rw [readWithin, hroom]
  cases hs : Bracket.segments text with
  | ok segs => exact ⟨fun h => (nomatch fault?_of_readAt hs h), nofun⟩
  | error f' =>
    rw [readAt_of_fault hdeep hs]
    simp

theorem read_eq_fault_iff (p : Parser) (text : List Char) (f : Bracket.Fault) :
    p.read text = .error (.bracket f) ↔ Bracket.segments text = .error f :=
  p.readWithin_eq_fault_iff (by decide) text f

end Parser

/-- A formula is refused for its brackets just when the whole text cannot be cut at
them, and for the same fault. What stands within a text that can be cut can be cut in
turn. -/
theorem faults_are_of_the_whole (o : Options) (text : String)
    (hcheck : checkDeclarations o.variableNames o.functions.signatures = .ok ()) :
    (∀ f, parse o text = .error (.bracket f) ↔ Bracket.segments text.toList = .error f) ∧
      ∀ piece, Bracket.Within text.toList piece →
        Bracket.Balanced true piece ∧ ∃ segs, Bracket.segments piece = .ok segs := by
  refine ⟨fun f => ?_, fun piece hpiece => ?_⟩
  · rw [parse, parseWithin_of_check hcheck]
    exact Parser.read_eq_fault_iff _ _ f
  · have hbalanced := hpiece.whole.1.weaken
    exact ⟨hbalanced, Bracket.segments_isOk_iff.mpr hbalanced⟩

/-- A bracket of the wrong kind three levels down is found where it stands in the whole
text. With the right one each piece can be cut on its own. -/
theorem faults_are_of_the_whole_nested :
    parse {} "(x,[x,(x]))" = .error (.bracket (.unexpectedCloser .square 8)) ∧
      Bracket.Balanced true "(x)".toList := by
  constructor
  · exact ((faults_are_of_the_whole {} "(x,[x,(x]))" rfl).1 _).mpr rfl
  · have hinner : Bracket.Within "[x,(x)]".toList "(x)".toList :=
      .argument rfl (List.mem_singleton_self _) (by decide)
    have houter : Bracket.Within "(x,[x,(x)])".toList "[x,(x)]".toList :=
      .argument rfl (List.mem_singleton_self _) (by decide)
    exact ((faults_are_of_the_whole {} "(x,[x,(x)])" rfl).2 _ (houter.deeper hinner)).1

end Formula
