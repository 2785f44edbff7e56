import Formula.Parser
import Formula.Proofs.Declared
import Formula.Proofs.Spans

/-!
# How a text comes to its tree

A text that is read at some depth was cut into segments, each segment became
parts, and the parts a tree. What holds of every such step holds of every text
and its tree.
-/

namespace Formula

theorem Part.reduceWithin_eq_ok : reduceWithin levels o ps = .ok e ↔ reduce o ps = .ok e :=
  mapError_eq_ok

namespace Parser

variable {p : Parser} {P Q : List Char → Expr → Prop}

/-- What a segment becomes, where `P` relates the arguments of a group to their
trees. -/
inductive SegmentRead (p : Parser) (P : List Char → Expr → Prop) :
    Bracket.Segment → List Part → Prop
  | plain : SegmentRead p P (.plain n span) ((Token.read p.vocabulary span).map ofToken)
  | group : List.Forall₂ P (Bracket.arguments inside) es →
      SegmentRead p P (.group b n inside) [ofGroup es]

theorem SegmentRead.mono (h : SegmentRead p P seg parts) (hP : ∀ text e, P text e → Q text e) :
    SegmentRead p Q seg parts := by
  cases h with
  | plain => exact .plain
  | group h => exact .group (h.imp hP)

theorem segmentParts_eq_ok {read : List Char → Except ParseError Expr} :
    p.segmentParts read seg = .ok parts ↔
      SegmentRead p (fun text e => read text = .ok e) seg parts := by
  cases seg with
  | plain n span =>
    refine ⟨fun h => ?_, fun h => ?_⟩
    · cases h; exact .plain
    · cases h; rfl
  | group b n inside =>
    simp only [segmentParts, bind_eq_ok, pure_eq_ok, mapM_eq_ok]
    constructor
    · rintro ⟨es, hes, rfl⟩
      exact .group hes
    · rintro (_ | h)
      exact ⟨_, h, rfl⟩

/-- The tree of a text whose arguments are related to their trees by `P`. -/
inductive Step (p : Parser) (P : List Char → Expr → Prop) : List Char → Expr → Prop
  | intro : Bracket.segments text = .ok segs → List.Forall₂ (SegmentRead p P) segs parts →
      Part.reduce p.options parts.flatten = .ok e → Step p P text e

theorem readAt_succ_eq_ok : p.readAt shown (room + 1) depth text = .ok e ↔
    p.options.isTooDeep depth = false ∧
      Step p (fun text e => p.readAt shown room (depth + 1) text = .ok e) text e := by
  rw [readAt]
  cases p.options.isTooDeep depth with
  | true => simp
  | false =>
    simp only [Bool.false_eq_true, if_false, true_and, bind_eq_ok, mapError_eq_ok, mapM_eq_ok,
      segmentParts_eq_ok, Part.reduceWithin_eq_ok]
    constructor
    · rintro ⟨segs, hs, parts, hp, h⟩
      exact .intro hs hp h
    · rintro ⟨hs, hp, h⟩
      exact ⟨_, hs, _, hp, h⟩

theorem readAt_of_segments (hdeep : p.options.isTooDeep depth = false)
    (hs : Bracket.segments text = .ok segs) :
    p.readAt shown (room + 1) depth text =
      segs.mapM (p.segmentParts (p.readAt shown room (depth + 1))) >>= fun parts =>
        Part.reduceWithin (shown depth) p.options parts.flatten := by
  rw [readAt, hdeep, hs]
  rfl

theorem readAt_of_fault (hdeep : p.options.isTooDeep depth = false)
    (hs : Bracket.segments text = .error f) :
    p.readAt shown (room + 1) depth text = .error (.bracket f) := by
  simp [readAt, hdeep, hs, Except.mapError]

theorem readAt_induction (step : ∀ text e, Step p P text e → P text e)
    (h : p.readAt shown room depth text = .ok e) : P text e := by
  induction room generalizing depth text e with
  | zero =>
    unfold readAt at h
    split at h <;> cases h
  | succ room ih =>
    obtain ⟨-, hs, hp, h⟩ := readAt_succ_eq_ok.mp h
    exact step _ _ (.intro hs (hp.imp fun _ _ hr => hr.mono fun _ _ => ih) h)

theorem ofOptions_bind_eq_ok {read : Parser → Except ParseError α} :
    ofOptions o >>= read = .ok a ↔
      checkDeclarations o.variableNames o.functions.signatures = .ok () ∧
        read ⟨o, o.vocabulary⟩ = .ok a := by
  simp only [ofOptions, bind_eq_ok, pure_eq_ok]
  constructor
  · rintro ⟨p, ⟨⟨⟩, hc, rfl⟩, h⟩
    exact ⟨hc, h⟩
  · rintro ⟨hc, h⟩
    exact ⟨_, ⟨⟨⟩, hc, rfl⟩, h⟩

end Parser

variable {l : Parser.Limits}

theorem parseWithin_of_check
    (h : checkDeclarations o.variableNames o.functions.signatures = .ok ()) :
    parseWithin l o text = (Parser.mk o o.vocabulary).readWithin l text := by
  rw [parseWithin, Parser.ofOptions, h]
  rfl

theorem parseWithin_eq_ok : parseWithin l o text = .ok e ↔
    checkDeclarations o.variableNames o.functions.signatures = .ok () ∧
      (Parser.mk o o.vocabulary).readAt l.shown l.brackets 0 text = .ok e :=
  Parser.ofOptions_bind_eq_ok

/-- The limits within which formulas are read. No brackets that the default options allow are beyond
them. -/
structure Parser.Limits.Govern (l : Limits) : Prop where
  isTooDeep : ({} : Options).isTooDeep l.brackets = true
  parse_eq : ∀ o text, parse o text = parseWithin l o text.toList
  parseRelations_eq : ∀ o text, parseRelations o text = parseRelationsWithin l o text.toList

theorem Parser.limits_govern : limits.Govern where
  isTooDeep := by decide
  parse_eq _ _ := rfl
  parseRelations_eq _ _ := rfl

theorem Parser.exists_govern : ∃ l : Limits, l.Govern := ⟨limits, limits_govern⟩

theorem parse_ofList (o : Options) (text : List Char) :
    parse o (.ofList text) = parseWithin Parser.limits o text := by
  rw [parse, String.toList_ofList]

def tokens (o : Options) (text : List Char) : List Token :=
  (Bracket.spans text).flatMap (Token.read o.vocabulary)

end Formula
