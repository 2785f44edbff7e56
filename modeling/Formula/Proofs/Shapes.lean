import Formula.Proofs.Balance
import Formula.Proofs.Readings
import Formula.Proofs.Recognition
import Mathlib.Data.List.TakeWhile

/-!
# Simple shapes of formulas

How a single word, number or operator is read, what becomes of the few parts of a
formula in which all operands stand in brackets, and how such a formula is read
from its arguments.
-/

namespace Formula

variable {o : Options}

-- ---------------------------------------------------------------------------
-- Single tokens
-- ---------------------------------------------------------------------------

namespace Token

variable {v : Vocabulary} {s : List Char}

theorem squeeze_eq_self (h : ∀ c ∈ s, Name.isWordChar c = true) : Text.squeeze s = s :=
  List.filter_eq_self.mpr fun c hc => by simp [Name.isBlank_of_isWordChar (h c hc)]

theorem read_word (h : ⟨s⟩ ∈ v.words) (hs : Name.isWord s = true) : read v s = [⟨.word, s⟩] := by
  refine read_eq_single ?_ (squeeze_eq_self fun c => Name.isWordChar_of_isWord hs)
  simp [first?, Vocabulary.longest_of_mem h, Name.ne_nil_of_isWord hs]

theorem longest_eq_nil (declared : Declared o)
    (hc : Name.isWordChar c = false ∨ Text.isDigit c = true) (rest : List Char) :
    o.vocabulary.longest (c :: rest) = [] := by
  by_contra hne
  have hword := declared.isWord (Vocabulary.longest_mem hne)
  have hprefix := o.vocabulary.prefix_longest (c :: rest)
  cases hl : o.vocabulary.longest (c :: rest) with
  | nil => exact hne hl
  | cons d w =>
    rw [hl] at hword hprefix
    obtain ⟨rfl, -⟩ := List.cons_prefix_cons.mp hprefix
    rcases hc with hc | hc
    · rw [Name.isWordChar_of_isWord hword List.mem_cons_self] at hc
      cases hc
    · simp [Name.isWord, hc] at hword

theorem isWordChar_operator (h : c ∈ ['+', '-', '^', '/', '*']) :
    Name.isWordChar c = false :=
  Name.not_isWordChar (List.mem_append_right ['(', ')', '[', ']', ',', '=', '<', '>'] h)

theorem read_operator (declared : Declared o) (h : c ∈ ['+', '-', '^', '/', '*']) :
    read o.vocabulary [c] = [⟨.operator, [c]⟩] := by
  have hl := longest_eq_nil declared (.inl (isWordChar_operator h)) []
  refine read_eq_single ?_ ?_
  · simp only [List.mem_cons, List.not_mem_nil, or_false] at h
    rcases h with rfl | rfl | rfl | rfl | rfl <;>
      simp [first?, hl, numeral, isOperator, Text.isDigit]
  · simp only [List.mem_cons, List.not_mem_nil, or_false] at h
    rcases h with rfl | rfl | rfl | rfl | rfl <;> decide

def digits (whole fraction : List Char) : List Char :=
  if fraction = [] then whole else whole ++ '.' :: fraction

theorem isWordChar_of_mem_digits (h : ∀ c ∈ whole ++ fraction, Text.isDigit c = true)
    (hc : c ∈ digits whole fraction) : Name.isWordChar c = true := by
  rw [List.forall_mem_append] at h
  unfold digits at hc
  split at hc
  · exact Name.isWordChar_of_isDigit (h.1 c hc)
  rcases List.mem_append.mp hc with hc | hc
  · exact Name.isWordChar_of_isDigit (h.1 c hc)
  rcases List.mem_cons.mp hc with rfl | hc
  · rfl
  · exact Name.isWordChar_of_isDigit (h.2 c hc)

theorem digits_ne_nil (h : whole ≠ []) (fraction : List Char) : digits whole fraction ≠ [] := by
  unfold digits
  split
  · exact h
  · simp

theorem takeWhile_digits (h : ∀ c ∈ whole, Text.isDigit c = true) (fraction : List Char) :
    (digits whole fraction).takeWhile Text.isDigit = whole := by
  unfold digits
  split
  · exact List.takeWhile_eq_self_iff.mpr h
  · rw [List.takeWhile_append_of_pos h, List.takeWhile_cons_of_neg (by decide), List.append_nil]

theorem drop_digits (whole fraction : List Char) :
    (digits whole fraction).drop whole.length =
      if fraction = [] then [] else '.' :: fraction := by
  unfold digits
  split <;> simp

theorem numeral_digits (hne : whole ≠ []) (h : ∀ c ∈ whole ++ fraction, Text.isDigit c = true) :
    numeral (digits whole fraction) = digits whole fraction := by
  rw [List.forall_mem_append] at h
  simp only [numeral, takeWhile_digits h.1, drop_digits]
  by_cases hf : fraction = []
  · simp [hne, hf, digits]
  · simp [hne, hf, digits, List.takeWhile_eq_self_iff.mpr h.2]

theorem ofNumeral_digits (h : ∀ c ∈ whole ++ fraction, Text.isDigit c = true) :
    Decimal.ofNumeral (digits whole fraction) =
      Decimal.Literal.toFloat ⟨false, whole, fraction, 0⟩ := by
  rw [List.forall_mem_append] at h
  have hdrop : (digits whole fraction).dropWhile Text.isDigit =
      if fraction = [] then [] else '.' :: fraction := by
    unfold digits
    split
    · exact List.dropWhile_eq_nil_iff.mpr h.1
    · rw [List.dropWhile_append_of_pos h.1, List.dropWhile_cons_of_neg (by decide)]
  rw [Decimal.ofNumeral, takeWhile_digits h.1, hdrop]
  by_cases hf : fraction = []
  · simp [hf, Decimal.Literal.fractionPart]
  · simp [hf, Decimal.Literal.fractionPart, List.takeWhile_eq_self_iff.mpr h.2]

theorem read_digits (declared : Declared o) (hne : whole ≠ [])
    (h : ∀ c ∈ whole ++ fraction, Text.isDigit c = true) :
    read o.vocabulary (digits whole fraction) = [⟨.number, digits whole fraction⟩] := by
  have hn := numeral_digits hne h
  refine read_eq_single ?_ (squeeze_eq_self fun c => isWordChar_of_mem_digits h)
  cases whole with
  | nil => exact absurd rfl hne
  | cons c whole =>
    have hc : Text.isDigit c = true := h c (by simp)
    obtain ⟨rest, hrest⟩ : ∃ rest, digits (c :: whole) fraction = c :: rest := by
      unfold digits
      split <;> exact ⟨_, rfl⟩
    rw [hrest] at hn ⊢
    simp [first?, longest_eq_nil declared (.inr hc), hn]

end Token

-- ---------------------------------------------------------------------------
-- Few parts
-- ---------------------------------------------------------------------------

namespace Part

variable {l r e : Expr}

theorem node_tree (he : e.isNumeric = true) : Node [.tree e] e := .tree he

theorem run_tree (he : e.isNumeric = true) : Run o [.tree e] e :=
  .power (.factor (.node (node_tree he)))

theorem sum_tree (he : e.isNumeric = true) : Sum o [.tree e] e := .product (.run (run_tree he))

theorem sum_negate (he : e.isNumeric = true) :
    Sum o [.pending "-", .tree e] (.unary .negate e) :=
  .product (.run (.power (.factor (.negated (node_tree he)))))

theorem reduce_tree (he : e.isNumeric = true) : reduce o [.tree e] = .ok e :=
  reduce_eq_ok.mpr ⟨[.tree e], rfl, sum_tree he⟩

theorem reduce_name (hleaf : nameLeaf o.variableNames.texts (.pending name) = .tree e)
    (he : e.isNumeric = true) : reduce o [.pending name] = .ok e := by
  refine reduce_eq_ok.mpr ⟨[.tree e], ?_, sum_tree he⟩
  rw [nameLeaves, List.map_singleton, hleaf]
  rfl

theorem applyCalls_cons_none {functions : FunctionTable} {p : Part}
    (hp : callee? functions p = none) (hlist : p.isEmptyList = false)
    (h : applyCalls functions ps = .ok out) : applyCalls functions (p :: ps) = .ok (p :: out) := by
  obtain ⟨called, hc, rfl⟩ := applyCalls_eq_ok.mp h
  refine applyCalls_eq_ok.mpr ⟨p :: called, ?_, List.filter_cons_of_pos (by simp [hlist])⟩
  rw [makeCalls.eq_def]
  simp [hp, hc, pure, Except.pure]

theorem applyCalls_nil {functions : FunctionTable} : applyCalls functions [] = .ok [] := rfl

theorem not_mem_operator (declared : Declared o) (h : c ∈ ['+', '-', '^', '/', '*']) :
    Word.ofString (.ofList [c]) ∉ o.vocabulary.words := by
  intro hw
  have hs := declared.isWord hw
  rw [Word.ofString, String.toList_ofList] at hs
  have hc := Name.isWordChar_of_isWord hs List.mem_cons_self
  rw [Token.isWordChar_operator h] at hc
  cases hc

theorem reduce_negate (h : Word.ofString "-" ∉ o.vocabulary.words) (he : e.isNumeric = true) :
    reduce o [.pending "-", .tree e] = .ok (.unary .negate e) := by
  refine reduce_eq_ok.mpr ⟨[.pending "-", .tree e], ?_, sum_negate he⟩
  rw [nameLeaves, List.map_cons, nameLeaf_unknown h]
  exact applyCalls_cons_none (callee?_eq_none h) rfl (applyCalls_cons_none rfl rfl applyCalls_nil)

theorem reduce_between (h : Word.ofString op ∉ o.vocabulary.words)
    (hsum : Sum o [.tree l, .pending op, .tree r] e) :
    reduce o [.tree l, .pending op, .tree r] = .ok e := by
  refine reduce_eq_ok.mpr ⟨_, ?_, hsum⟩
  rw [nameLeaves, List.map_cons, List.map_cons, nameLeaf_unknown h]
  exact applyCalls_cons_none rfl rfl (applyCalls_cons_none (callee?_eq_none h) rfl
    (applyCalls_cons_none rfl rfl applyCalls_nil))

theorem reduce_call {p : Part}
    (hleaf : nameLeaf o.variableNames.texts (.pending name) = .pending name)
    (hc : callee? o.functions (.pending name) = some c) (hargs : p.arguments? = some es)
    (hcall : c.call (some es) = .ok e) (he : e.isNumeric = true) :
    reduce o [.pending name, p] = .ok e := by
  have hp : nameLeaf o.variableNames.texts p = p := by
    cases p with
    | pending => cases hargs
    | _ => rfl
  refine reduce_eq_ok.mpr ⟨[.tree e], applyCalls_eq_ok.mpr ⟨[.tree e], ?_, rfl⟩, sum_tree he⟩
  rw [nameLeaves, List.map_cons, List.map_singleton, hleaf, hp]
  simp [makeCalls, hc, hargs, hcall, pure, Except.pure]

end Part

-- ---------------------------------------------------------------------------
-- Texts of few segments
-- ---------------------------------------------------------------------------

namespace Parser

variable {p : Parser} {s inside l r : List Char} {t : Token} {e : Expr}

theorem arguments?_ofGroup (h : ∀ e ∈ es, e.isNumeric = true) :
    (ofGroup es).arguments? = some es := by
  unfold ofGroup
  split
  · simp [Part.arguments?, Part.operand?_tree (h _ (List.mem_singleton_self _))]
  · rfl

theorem forall₂_whole {R : List Char → Expr → Prop} (hs : Bracket.Whole s) (h : R s e) :
    List.Forall₂ R (Bracket.arguments s) [e] := by
  rw [Bracket.arguments_whole hs]
  exact .cons h .nil

theorem readAt_leaf (hdeep : p.options.isTooDeep depth = false) (hne : s ≠ [])
    (hs : ∀ c ∈ s, Bracket.mark c = .plain) (hread : Token.read p.vocabulary s = [t])
    (hreduce : Part.reduce p.options [ofToken t] = .ok e) :
    p.readAt shown (room + 1) depth s = .ok e := by
  refine readAt_succ_eq_ok.mpr ⟨hdeep,
    .intro (Bracket.segments_plain hne hs) (.cons .plain .nil) ?_⟩
  rw [hread]
  exact hreduce

theorem readAt_prefixed (b : Bracket) (hdeep : p.options.isTooDeep depth = false) (hne : s ≠ [])
    (hs : ∀ c ∈ s, Bracket.mark c = .plain) (hread : Token.read p.vocabulary s = [t])
    (hinner : Bracket.Balanced true inside)
    (hes : List.Forall₂ (fun a e => p.readAt shown room (depth + 1) a = .ok e)
      (Bracket.arguments inside) es)
    (hreduce : Part.reduce p.options [ofToken t, ofGroup es] = .ok e) :
    p.readAt shown (room + 1) depth (s ++ b.opener :: (inside ++ [b.closer])) = .ok e := by
  refine readAt_succ_eq_ok.mpr ⟨hdeep, .intro (Bracket.segments_prefixed b hne hs hinner)
    (.cons .plain (.cons (.group hes) .nil)) ?_⟩
  rw [hread]
  exact hreduce

theorem readAt_between (b b' : Bracket) (hdeep : p.options.isTooDeep depth = false)
    (hc : Bracket.mark c = .plain) (hread : Token.read p.vocabulary [c] = [t])
    (hl : Bracket.Whole l) (hr : Bracket.Whole r) (hx : p.readAt shown room (depth + 1) l = .ok x)
    (hy : p.readAt shown room (depth + 1) r = .ok y)
    (hreduce : Part.reduce p.options [.tree x, ofToken t, .tree y] = .ok e) :
    p.readAt shown (room + 1) depth
      (b.opener :: (l ++ b.closer :: c :: b'.opener :: (r ++ [b'.closer]))) = .ok e := by
  obtain ⟨n, n', hsegs⟩ := Bracket.segments_between b b' hc hl.1.weaken hr.1.weaken
  refine readAt_succ_eq_ok.mpr ⟨hdeep, .intro hsegs (.cons (.group (forall₂_whole hl hx))
    (.cons .plain (.cons (.group (forall₂_whole hr hy)) .nil))) ?_⟩
  rw [hread]
  exact hreduce

/-- Where each text of a family has the one before it as its only group, one that takes all the
room there is cannot be read. -/
theorem readAt_exhausted {family : Nat → List Char} (hwhole : ∀ n, Bracket.Whole (family n))
    (hgroup : ∀ n, ∃ k held b, Bracket.segments (family (n + 1)) =
      .ok (Bracket.plainBefore k held ++ [.group b k (family n)]))
    (hlimit : ∀ k ≤ room, p.options.isTooDeep (depth + k) = false) (hroom : room ≤ n) :
    p.readAt shown room depth (family n) = .error .exhausted := by
  induction room generalizing depth n with
  | zero =>
    have hdeep : p.options.isTooDeep depth = false := hlimit 0 (Nat.le_refl 0)
    simp [readAt, hdeep]
  | succ room ih =>
    obtain ⟨n, rfl⟩ := Nat.exists_eq_add_one_of_ne_zero (Nat.ne_zero_of_lt hroom)
    have hinner : p.readAt shown room (depth + 1) (family n) = .error .exhausted := by
      refine ih (fun k hk => ?_) (Nat.le_of_succ_le_succ hroom)
      rw [Nat.add_assoc, Nat.add_comm 1]
      exact hlimit (k + 1) (Nat.succ_le_succ hk)
    have hdeep : p.options.isTooDeep depth = false := hlimit 0 (Nat.zero_le _)
    obtain ⟨k, held, b, hsegs⟩ := hgroup n
    rw [readAt_of_segments hdeep hsegs]
    cases held <;>
      simp [Bracket.plainBefore, segmentParts, Bracket.arguments_whole (hwhole n), hinner]

end Parser

end Formula
