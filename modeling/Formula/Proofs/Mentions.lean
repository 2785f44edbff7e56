import Formula.Proofs.Spans
import Formula.Proofs.WellFormed

/-!
# Names come from the text

The variables of a tree, and the declared functions that it calls, are those of
the words in its text, in the same order. Every pass keeps the names that its
parts mention, so no operand is lost, doubled or moved.
-/

namespace Formula

inductive Mention where
  | leaf (name : Datum)
  | call (d : Definition)

namespace Mention

def leaf? : Mention → Option Datum
  | .leaf name => some name
  | .call _ => none

def call? : Mention → Option Definition
  | .leaf _ => none
  | .call d => some d

end Mention

namespace Expr

mutual
def mentions : Expr → List Mention
  | .missing | .const _ => []
  | .var name => [.leaf name]
  | .unary _ e => e.mentions
  | .binary _ l r | .compare _ l r => l.mentions ++ r.mentions
  | .call d es => .call d :: mentionsAll es
def mentionsAll : List Expr → List Mention
  | [] => []
  | e :: es => e.mentions ++ mentionsAll es
end

mutual
theorem variableNames_eq : (e : Expr) → e.variableNames = e.mentions.filterMap Mention.leaf?
  | .missing | .const _ | .var _ => rfl
  | .unary _ e => variableNames_eq e
  | .binary _ l r | .compare _ l r => by
    rw [variableNames, mentions, List.filterMap_append, variableNames_eq l, variableNames_eq r]
  | .call _ es => variableNamesAll_eq es
theorem variableNamesAll_eq : (es : List Expr) →
    variableNamesAll es = (mentionsAll es).filterMap Mention.leaf?
  | [] => rfl
  | e :: es => by
    rw [variableNamesAll, mentionsAll, List.filterMap_append, variableNames_eq e,
      variableNamesAll_eq es]
end

mutual
theorem callees_eq : (e : Expr) → e.callees = e.mentions.filterMap Mention.call?
  | .missing | .const _ | .var _ => rfl
  | .unary _ e => callees_eq e
  | .binary _ l r | .compare _ l r => by
    rw [callees, mentions, List.filterMap_append, callees_eq l, callees_eq r]
  | .call d es => congrArg (d :: ·) (calleesAll_eq es)
theorem calleesAll_eq : (es : List Expr) →
    calleesAll es = (mentionsAll es).filterMap Mention.call?
  | [] => rfl
  | e :: es => by
    rw [calleesAll, mentionsAll, List.filterMap_append, callees_eq e, calleesAll_eq es]
end

end Expr

-- ---------------------------------------------------------------------------
-- Passes keep what is mentioned
-- ---------------------------------------------------------------------------

namespace Part

variable {o : Options} {functions : FunctionTable} {f : String → List Mention}

def mentions (f : String → List Mention) : Part → List Mention
  | .pending text => f text
  | .arguments es => Expr.mentionsAll es
  | .tree e => e.mentions

/-- What a name mentions once variables and constants are replaced. -/
def calleeMentions (functions : FunctionTable) (name : String) : List Mention :=
  ((functions.byName? (.text name)).map Mention.call).toList

def nameMentions (o : Options) (name : String) : List Mention :=
  if name ∈ o.variableNames.texts then [.leaf (.text name)]
  else if name ∈ Builtin.constantNames then []
  else calleeMentions o.functions name

theorem mentions_nameLeaf (p : Part) :
    (nameLeaf o.variableNames.texts p).mentions (calleeMentions o.functions) =
      p.mentions (nameMentions o) := by
  cases p with
  | pending text =>
    rcases nameLeaf_pending o.variableNames.texts text with
      ⟨hv, h⟩ | ⟨hv, e, hc, h⟩ | ⟨hv, hc, h⟩
    · rw [h]
      simp [mentions, nameMentions, hv, Expr.named, Expr.mentions]
    · obtain ⟨hn, he⟩ := constant?_eq_some hc
      rw [h]
      rcases he with rfl | rfl <;> simp [mentions, nameMentions, hv, hn] <;> rfl
    · rw [h]
      simp [mentions, nameMentions, hv, constant?_eq_none.mp hc]
  | _ => rfl

theorem mentions_arguments? {p : Part} (h : p.arguments? = some es) :
    p.mentions f = Expr.mentionsAll es := by
  rcases arguments?_eq_some.mp h with rfl | ⟨e, -, rfl, rfl⟩
  · rfl
  · simp [mentions, Expr.mentionsAll]

theorem mentions_builtin {b : Builtin} (h : b.call? es = some e) :
    e.mentions = Expr.mentionsAll es := by
  unfold Builtin.call? at h
  split at h <;> cases h <;>
    simp [Expr.mentions, Expr.mentionsAll, Expr.real, Expr.whole, Expr.euler]

theorem mentions_call {p : Part} (hc : callee? functions p = some c)
    (h : c.call args = .ok e) :
    e.mentions = p.mentions (calleeMentions functions) ++ Expr.mentionsAll (args.getD []) := by
  obtain ⟨name, rfl, ⟨d, hd, rfl⟩ | ⟨hd, b, -, rfl⟩⟩ := callee?_eq_some.mp hc
  · obtain ⟨-, rfl⟩ := Callee.call_declared_eq_ok.mp h
    simp [mentions, calleeMentions, hd, Expr.mentions]
  · obtain ⟨es, rfl, he⟩ := Callee.call_builtin_eq_ok.mp h
    simp [mentions, calleeMentions, hd, mentions_builtin he]

theorem mentions_of_callee?_eq_none {p : Part} (h : callee? functions p = none) :
    p.mentions (calleeMentions functions) = p.mentions fun _ => [] := by
  cases p with
  | pending text =>
    cases hd : functions.byName? (.text text) with
    | none => simp [mentions, calleeMentions, hd]
    | some d => simp [callee?, hd] at h
  | _ => rfl

theorem mentions_called (h : Called functions ls p) :
    ls.flatMap (mentions (calleeMentions functions)) = p.mentions fun _ => [] := by
  cases h with
  | part hc => simp [mentions_of_callee?_eq_none hc]
  | @bare p c e hc he =>
    have he : (Part.tree e).mentions (fun _ => []) = _ := mentions_call hc he
    simp [he, Expr.mentionsAll]
  | @applied p c es e next hc hn he =>
    have he : (Part.tree e).mentions (fun _ => []) = _ := mentions_call hc he
    simp [he, mentions_arguments? hn]

theorem mentions_applyCalls (h : applyCalls functions ps = .ok out) :
    out.flatMap (mentions fun _ => []) = ps.flatMap (mentions (calleeMentions functions)) := by
  obtain ⟨called, hc, rfl⟩ := applyCalls_eq_ok.mp h
  rw [(makeCalls_ok hc false).flatMap_eq fun _ _ _ => mentions_called]
  clear hc h
  induction called with
  | nil => rfl
  | cons p called ih =>
    rw [List.filter_cons]
    split
    · rw [List.flatMap_cons, List.flatMap_cons, ih]
    · rename_i hp
      have hp : p.mentions (fun _ => []) = [] := by
        cases p with
        | arguments es => cases es <;> simp_all [isEmptyList, mentions, Expr.mentionsAll]
        | _ => simp [isEmptyList] at hp
      rw [List.flatMap_cons, hp, ih]
      rfl

theorem mentions_raise (l r : Expr) : (raise l r).mentions = l.mentions ++ r.mentions := by
  unfold raise
  split
  · rename_i h
    rw [← isEuler_eq_same] at h
    cases l with
    | unary op e => cases op <;> cases e <;> simp_all [Expr.isEuler, Expr.mentions]
    | _ => cases h
  · rfl

theorem mentions_difference (l r : Expr) :
    (difference o l r).mentions = l.mentions ++ r.mentions := by
  unfold difference
  split <;> rfl

theorem mentions_sum (h : Sum o ps e) : ps.flatMap (mentions fun _ => []) = e.mentions := by
  have hP : Kept o fun ps e => ps.flatMap (mentions fun _ => []) = e.mentions := by
    constructor
    case tree => intro e _; simp [mentions]
    case negated => intro ps e h; simp [mentions, Expr.mentions, h]
    case power => intro ls l rs r hl hr; simp [mentions, mentions_raise, hl, hr]
    case minus => intro ls l rs r hl hr; simp [mentions, mentions_difference, hl, hr]
    all_goals intro ls l rs r hl hr; simp [mentions, Expr.mentions, hl, hr]
  exact hP.sum h

theorem mentions_reduce (h : reduce o ps = .ok e) :
    e.mentions = ps.flatMap (mentions (nameMentions o)) := by
  obtain ⟨out, hout, hsum⟩ := reduce_eq_ok.mp h
  rw [← mentions_sum hsum, mentions_applyCalls hout, nameLeaves, List.flatMap_map]
  exact congrArg (ps.flatMap ·) (funext mentions_nameLeaf)

end Part

-- ---------------------------------------------------------------------------
-- Tokens of a text
-- ---------------------------------------------------------------------------

namespace Parser

variable {o : Options} {p : Parser}

def tokenMentions (o : Options) (t : Token) : List Mention :=
  if t.kind = .word then Part.nameMentions o (.ofList t.text) else []

theorem nameMentions_eq_nil (h : Word.ofString name ∉ o.vocabulary.words) :
    Part.nameMentions o name = [] := by
  obtain ⟨hv, hd, -⟩ := Options.not_mem_vocabulary h
  simp [Part.nameMentions, Part.calleeMentions, hv, hd]

theorem mentions_ofToken (h : t ∈ Token.read o.vocabulary span) :
    (ofToken t).mentions (Part.nameMentions o) = tokenMentions o t := by
  obtain ⟨rest, hs⟩ := Token.mem_read h
  have hword : Word.ofString (.ofList t.text) = ⟨t.text⟩ := by
    rw [Word.ofString, String.toList_ofList]
  cases hk : t.kind with
  | word => simp [ofToken, tokenMentions, hk, Part.mentions]
  | number => simp [ofToken, tokenMentions, hk, Part.mentions, Expr.real, Expr.mentions]
  | operator =>
    obtain ⟨_, -, -, hn⟩ := hs.operator hk
    simp [ofToken, tokenMentions, hk, Part.mentions, nameMentions_eq_nil (hword ▸ hn)]
  | unknown =>
    have hn := (hs.unknown hk).2
    simp [ofToken, tokenMentions, hk, Part.mentions, nameMentions_eq_nil (hword ▸ hn)]

theorem mentions_ofGroup (f : String → List Mention) (es : List Expr) :
    (ofGroup es).mentions f = Expr.mentionsAll es := by
  unfold ofGroup
  split
  · simp [Part.mentions, Expr.mentionsAll]
  · rfl

def textMentions (o : Options) (text : List Char) : List Mention :=
  (Bracket.spans text).flatMap fun span => (Token.read o.vocabulary span).flatMap (tokenMentions o)

theorem mentionsAll_arguments
    (h : List.Forall₂ (fun text e => e.mentions = textMentions o text) texts es) :
    Expr.mentionsAll es = texts.flatMap (textMentions o) := by
  induction h with
  | nil => rfl
  | cons he _ ih => rw [Expr.mentionsAll, he, ih, List.flatMap_cons]

theorem mentions_segment (hv : p.vocabulary = p.options.vocabulary)
    (h : SegmentRead p (fun text e => e.mentions = textMentions p.options text) seg parts) :
    parts.flatMap (Part.mentions (Part.nameMentions p.options)) =
      seg.spans.flatMap fun span =>
        (Token.read p.options.vocabulary span).flatMap (tokenMentions p.options) := by
  cases h with
  | @plain n span =>
    rw [hv, List.flatMap_map, Bracket.Segment.spans, List.flatMap_singleton]
    exact List.flatMap_congr fun t ht => mentions_ofToken ht
  | group h =>
    rw [List.flatMap_singleton, mentions_ofGroup, mentionsAll_arguments h, Bracket.Segment.spans,
      List.flatMap_assoc]
    rfl

theorem mentions_readAt (hv : p.vocabulary = p.options.vocabulary)
    (h : p.readAt shown room depth text = .ok e) : e.mentions = textMentions p.options text := by
  refine readAt_induction (P := fun text e => e.mentions = textMentions p.options text) ?_ h
  rintro text e ⟨hsegs, hread, hreduce⟩
  rw [Part.mentions_reduce hreduce, textMentions, Bracket.spans_of_segments hsegs]
  clear hsegs hreduce
  induction hread with
  | nil => rfl
  | cons hseg _ ih =>
    rw [List.flatten_cons, List.flatMap_append, mentions_segment hv hseg, ih, List.flatMap_cons,
      List.flatMap_append]

end Parser

-- ---------------------------------------------------------------------------
-- Names of a tree
-- ---------------------------------------------------------------------------

variable {o : Options}

def words (o : Options) (text : List Char) : List String :=
  ((tokens o text).filter (·.kind = .word)).map fun t => .ofList t.text

def isFree (o : Options) (name : String) : Bool :=
  name ∉ o.variableNames.texts && !Builtin.constantNames.contains name

theorem textMentions_eq (text : List Char) :
    Parser.textMentions o text = (words o text).flatMap (Part.nameMentions o) := by
  rw [Parser.textMentions, ← List.flatMap_assoc, ← tokens, words, List.flatMap_map]
  induction tokens o text with
  | nil => rfl
  | cons t ts ih =>
    rw [List.flatMap_cons, ih, List.filter_cons, Parser.tokenMentions]
    cases hk : t.kind <;> simp

theorem leaves_nameMentions (names : List String) :
    (names.flatMap (Part.nameMentions o)).filterMap Mention.leaf? =
      (names.filter (· ∈ o.variableNames.texts)).map .text := by
  induction names with
  | nil => rfl
  | cons name names ih =>
    rw [List.flatMap_cons, List.filterMap_append, ih, Part.nameMentions, List.filter_cons]
    by_cases hv : name ∈ o.variableNames.texts
    · simp [hv, Mention.leaf?]
    · by_cases hc : name ∈ Builtin.constantNames
      · simp [hv, hc]
      · cases hd : o.functions.byName? (.text name) <;>
          simp [hv, hc, Part.calleeMentions, hd, Mention.leaf?]

theorem calls_nameMentions (names : List String) :
    (names.flatMap (Part.nameMentions o)).filterMap Mention.call? =
      (names.filter (isFree o)).filterMap fun name => o.functions.byName? (.text name) := by
  induction names with
  | nil => rfl
  | cons name names ih =>
    rw [List.flatMap_cons, List.filterMap_append, ih, Part.nameMentions, List.filter_cons, isFree]
    by_cases hv : name ∈ o.variableNames.texts
    · simp [hv, Mention.call?]
    · by_cases hc : name ∈ Builtin.constantNames
      · simp [hv, hc]
      · cases hd : o.functions.byName? (.text name) <;>
          simp [hv, hc, Part.calleeMentions, hd, Mention.call?]

theorem mentions_parseWithin (h : parseWithin l o text = .ok t) :
    t.mentions = (words o text).flatMap (Part.nameMentions o) := by
  rw [← textMentions_eq]
  exact Parser.mentions_readAt rfl (parseWithin_eq_ok.mp h).2

theorem ofData?_texts (names : List String) :
    NameSet.ofData? (names.map .text) = some (.ofTexts names) := by
  have htexts : (names.map Datum.text).filterMap Datum.text? = names := by
    rw [List.filterMap_map]
    exact List.filterMap_some
  have hnumbers : (names.map Datum.text).filterMap NameSet.number? = [] := by
    simp [List.filterMap_map, NameSet.number?]
  rw [NameSet.ofData?, if_pos (by simp [Datum.isAtom]), htexts, hnumbers]
  rfl

/-- The variables and declared functions of a formula's tree are those of its words, in
order, within whatever limits it is read. So the tree uses declared names only, and its inventory
can be taken. -/
theorem names_come_from_text (h : parseWithin l o text = .ok t) :
    (∃ l : Parser.Limits, l.Govern) ∧
    t.variableNames = ((words o text).filter (· ∈ o.variableNames.texts)).map .text ∧
      t.callees = ((words o text).filter (isFree o)).filterMap (o.functions.byName? <| .text ·) ∧
      t.Everywhere (Expr.WellFormed o) ∧
      (t.height ≤ Expr.levels →
        (∃ names, t.usedVariables = .ok names) ∧ ∃ table, t.usedFunctions = .ok table) ∧
      (∀ names, t.usedVariables = .ok names →
        names.strays = [] ∧ ∀ x ∈ names.texts, x ∈ o.variableNames.texts) ∧
      ∀ table, t.usedFunctions = .ok table →
        ∀ d ∈ table.definitions, ∃ d' ∈ o.functions.definitions, d = d'.erase := by
  obtain ⟨hcheck, hread⟩ := parseWithin_eq_ok.mp h
  have declared := checkDeclarations_eq_ok.mp hcheck
  have hwell := Parser.everywhere_readAt hread
  have hvars : t.variableNames =
      ((words o text).filter (· ∈ o.variableNames.texts)).map .text := by
    rw [Expr.variableNames_eq, mentions_parseWithin h, leaves_nameMentions]
  have hcalls : t.callees =
      ((words o text).filter (isFree o)).filterMap (o.functions.byName? <| .text ·) := by
    rw [Expr.callees_eq, mentions_parseWithin h, calls_nameMentions]
  refine ⟨Parser.exists_govern, hvars, hcalls, hwell, fun hheight => ⟨?_, ?_⟩,
    fun names hnames => ?_, fun table htable d hd => ?_⟩
  · have hfits := Expr.Everywhere.mono (fun _ he => he.fitsVariables) t hwell
    exact ⟨_, Expr.usedVariables_eq_ok.mpr
      ⟨Expr.walk_eq_ok hfits hheight, hvars ▸ ofData?_texts _⟩⟩
  · have hfits := Expr.Everywhere.mono (fun _ he => he.fitsCalls declared) t hwell
    exact ⟨_, Expr.usedFunctions_eq_ok.mpr ⟨Expr.walk_eq_ok hfits hheight, rfl⟩⟩
  · obtain ⟨-, hn⟩ := Expr.usedVariables_eq_ok.mp hnames
    rw [hvars, ofData?_texts] at hn
    cases hn
    exact ⟨rfl, fun x hx => by simpa using (List.mem_filter.mp (OrderedSet.mem_ofList.mp hx)).2⟩
  · obtain ⟨-, rfl⟩ := Expr.usedFunctions_eq_ok.mp htable
    obtain ⟨d', hd', rfl⟩ := List.mem_map.mp (mem_keepFirst hd)
    rw [hcalls] at hd'
    obtain ⟨name, -, hname⟩ := List.mem_filterMap.mp hd'
    exact ⟨d', (Options.byName?_eq_some hname).1, rfl⟩

/-- Calls and variables at several levels; the last `f` is called without arguments. -/
theorem names_come_from_nested_text :
    let o : Options := {
      variableNames := .ofTexts ["x", "y"]
      functions := .ofList [⟨.of "f" 0 2, none⟩] }
    ∃ t, parse o "f(y [x] e, f)" = .ok t ∧
      t.variableNames = [.text "y", .text "x"] ∧ t.callees.length = 2 := by
  intro o
  have hok : (parse o "f(y [x] e, f)").isOk = true := by decide +kernel
  have hwords : words o "f(y [x] e, f)".toList = ["f", "y", "x", "e", "f"] := by decide +kernel
  cases h : parse o "f(y [x] e, f)" with
  | error => rw [h] at hok; cases hok
  | ok t =>
    obtain ⟨-, hvars, hcalls, -⟩ := names_come_from_text h
    rw [hwords] at hvars hcalls
    refine ⟨t, rfl, hvars, ?_⟩
    rw [hcalls]
    decide +kernel

end Formula
