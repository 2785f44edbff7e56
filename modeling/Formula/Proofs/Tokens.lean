import Formula.Token
import Mathlib.Data.List.Basic

/-!
# Tokens and the text they are read from

The longest word of a vocabulary at the start of a text, and what every token of
a text says about the place where it was read.
-/

namespace Formula

-- ---------------------------------------------------------------------------
-- Words
-- ---------------------------------------------------------------------------

theorem Word.length_le_of_lt {w w' : Word} (h : compare w w' = .lt) :
    w'.letters.length ≤ w.letters.length := by
  by_contra hlt
  have hlen : compareOn (·.letters.length) w' w = Ordering.gt :=
    Std.compare_eq_gt.mpr (Nat.lt_of_not_le hlt)
  have hgt : compare w w' = .gt := by
    show Word.order w w' = .gt
    rw [Word.order, compareLex, hlen]
    rfl
  rw [hgt] at h
  cases h

namespace Vocabulary

variable {v : Vocabulary}

theorem mem_words_ofNames {variableNames functions : List String} {name : String} :
    Word.ofString name ∈ (ofNames variableNames functions).words ↔
      name ∈ variableNames ++ functions ++ Builtin.constantNames ++ Builtin.functionNames := by
  have hinj : Word.ofString.Injective := fun m n h => String.toList_injective (Word.mk.inj h)
  rw [ofNames, OrderedSet.mem_ofList, List.mem_map_of_injective hinj]

theorem prefix_longest (v : Vocabulary) (text : List Char) : v.longest text <+: text := by
  unfold longest
  split
  · rename_i w h
    have hw := List.find?_some h
    exact List.isPrefixOf_iff_prefix.mp hw
  · exact List.nil_prefix

theorem longest_mem (h : v.longest text ≠ []) : ⟨v.longest text⟩ ∈ v.words := by
  unfold longest at h ⊢
  split
  · rename_i w hw
    exact List.mem_of_find?_eq_some hw
  · rename_i hn
    simp [hn] at h

theorem length_le_longest (hw : w ∈ v.words) (hp : w.letters <+: text) :
    w.letters.length ≤ (v.longest text).length := by
  unfold longest
  split
  · rename_i w' hf
    -- The longest words come first: those before the one that was found do not start the
    -- text, and those after it are not longer.
    obtain ⟨-, before, after, hv, hbefore⟩ := List.find?_eq_some_iff_append.mp hf
    have hasc := v.words.ascending
    rw [hv] at hasc
    rw [← OrderedSet.mem_toList, hv] at hw
    rcases List.mem_append.mp hw with hw | hw
    · have hn := hbefore w hw
      rw [List.isPrefixOf_iff_prefix.mpr hp] at hn
      cases hn
    rcases List.mem_cons.mp hw with rfl | hw
    · exact Nat.le_refl _
    · exact Word.length_le_of_lt ((List.pairwise_cons.mp (List.pairwise_append.mp hasc).2.1).1 w hw)
  · rename_i hn
    have := List.find?_eq_none.mp hn w hw
    exact absurd (List.isPrefixOf_iff_prefix.mpr hp) this

theorem not_mem_of_longest_eq_nil (h : v.longest (text ++ rest) = []) (hne : text ≠ []) :
    ⟨text⟩ ∉ v.words := by
  intro hw
  have hle := length_le_longest hw (List.prefix_append text rest)
  rw [h] at hle
  exact hne (List.eq_nil_of_length_eq_zero (Nat.le_zero.mp hle))

theorem longest_of_mem (h : ⟨text⟩ ∈ v.words) : v.longest text = text :=
  (prefix_longest v text).eq_of_length_le (length_le_longest h (List.prefix_refl text))

end Vocabulary

-- ---------------------------------------------------------------------------
-- The token at the start of a text
-- ---------------------------------------------------------------------------

namespace Token

variable {v : Vocabulary} {t : Token} {text : List Char}

theorem prefix_numeral (text : List Char) : numeral text <+: text := by
  have hwhole := List.takeWhile_prefix (l := text) Text.isDigit
  simp only [numeral]
  split
  · exact List.nil_prefix
  split
  · rename_i rest hrest
    split
    · exact hwhole
    · obtain ⟨after, hafter⟩ := List.takeWhile_prefix (l := rest) Text.isDigit
      have htext := List.prefix_iff_eq_append.mp hwhole
      rw [hrest, ← hafter] at htext
      exact ⟨after, by rw [List.append_assoc]; exact htext⟩
  · exact hwhole

theorem mem_numeral (h : c ∈ numeral text) : Text.isDigit c = true ∨ c = '.' := by
  have hdigit : ∀ {text : List Char}, c ∈ text.takeWhile Text.isDigit → Text.isDigit c = true :=
    fun hc => List.all_eq_true.mp List.all_takeWhile _ hc
  simp only [numeral] at h
  split at h
  · cases h
  split at h
  · split at h
    · exact .inl (hdigit h)
    · rcases List.mem_append.mp h with h | h
      · exact .inl (hdigit h)
      rcases List.mem_cons.mp h with rfl | h
      · exact .inr rfl
      · exact .inl (hdigit h)
  · exact .inl (hdigit h)

theorem first?_eq_some_iff {k : TokenKind} {s : List Char} : first? v text = some ⟨k, s⟩ ↔
    match k with
    | .word => v.longest text = s ∧ s ≠ []
    | .number => (numeral text = s ∧ s ≠ []) ∧ v.longest text = []
    | .operator => (∃ c rest, text = c :: rest ∧ s = [c] ∧ isOperator c = true) ∧
        v.longest text = [] ∧ numeral text = []
    | .unknown => False := by
  simp only [first?]
  by_cases hword : v.longest text = []
  · by_cases hnumber : numeral text = []
    · cases text with
      | nil => cases k <;> grind
      | cons c rest => cases k <;> grind
    · cases k <;> grind
  · cases k <;> grind

theorem first?_eq_none_iff : first? v (c :: rest) = none ↔
    v.longest (c :: rest) = [] ∧ numeral (c :: rest) = [] ∧ isOperator c = false := by
  simp only [first?]
  by_cases hword : v.longest (c :: rest) = []
  · by_cases hnumber : numeral (c :: rest) = []
    · simp [hword, hnumber]
    · simp [hword, hnumber]
  · simp [hword]

theorem first?_eq_some (h : first? v text = some t) :
    (t = ⟨.word, v.longest text⟩ ∧ v.longest text ≠ []) ∨
      (t = ⟨.number, numeral text⟩ ∧ numeral text ≠ [] ∧ v.longest text = []) ∨
      ∃ c rest, text = c :: rest ∧ t = ⟨.operator, [c]⟩ ∧ isOperator c = true ∧
        v.longest text = [] := by
  obtain ⟨k, s⟩ := t
  have hs := first?_eq_some_iff.mp h
  cases k with
  | word =>
    obtain ⟨rfl, hne⟩ := hs
    exact .inl ⟨rfl, hne⟩
  | number =>
    obtain ⟨⟨rfl, hne⟩, hword⟩ := hs
    exact .inr (.inl ⟨rfl, hne, hword⟩)
  | operator =>
    obtain ⟨⟨c, rest, rfl, rfl, hc⟩, hword, -⟩ := hs
    exact .inr (.inr ⟨c, rest, rfl, rfl, hc, hword⟩)
  | unknown => exact hs.elim

theorem prefix_first? (h : first? v text = some t) : t.text <+: text ∧ t.text ≠ [] := by
  rcases first?_eq_some h with ⟨rfl, hne⟩ | ⟨rfl, hne, -⟩ | ⟨c, rest, rfl, rfl, -⟩
  · exact ⟨v.prefix_longest text, hne⟩
  · exact ⟨prefix_numeral text, hne⟩
  · exact ⟨⟨rest, rfl⟩, nofun⟩

-- ---------------------------------------------------------------------------
-- All tokens of a text
-- ---------------------------------------------------------------------------

/-- Where a token was read: right before `rest`. Nothing known starts where an
unknown fragment does. -/
def StartsBefore (v : Vocabulary) (t : Token) (rest : List Char) : Prop :=
  t.text ≠ [] ∧ first? v (t.text ++ rest) = if t.kind = .unknown then none else some t

theorem first?_kind (h : first? v text = some t) : t.kind ≠ .unknown := by
  rcases first?_eq_some h with ⟨rfl, -⟩ | ⟨rfl, -⟩ | ⟨c, rest, -, rfl, -⟩ <;> nofun

theorem drop_first? (h : first? v (c :: rest) = some t) :
    t.text ++ rest.drop (t.text.length - 1) = c :: rest := by
  obtain ⟨hp, hne⟩ := prefix_first? h
  have htext := List.prefix_iff_eq_append.mp hp
  cases hlen : t.text.length with
  | zero => exact absurd (List.eq_nil_of_length_eq_zero hlen) hne
  | succ n =>
    rw [hlen, List.drop_succ_cons] at htext
    exact htext

theorem mem_fragment (h : t ∈ fragment held) : t = ⟨.unknown, held.reverse⟩ ∧ held ≠ [] := by
  unfold fragment at h
  split at h
  · cases h
  · rename_i hne
    exact ⟨List.mem_singleton.mp h, by simpa using hne⟩

theorem flatMap_fragment (held : List Char) : (fragment held).flatMap (·.text) = held.reverse := by
  cases held <;> simp [fragment]

theorem startsBefore_of_mem_fragment (h : t ∈ fragment held)
    (hheld : held ≠ [] → first? v (held.reverse ++ rest) = none) : StartsBefore v t rest := by
  obtain ⟨rfl, hne⟩ := mem_fragment h
  exact ⟨by simpa using hne, hheld hne⟩

theorem startsBefore_of_mem_readFrom (h : t ∈ readFrom v held text)
    (hheld : held ≠ [] → first? v (held.reverse ++ text) = none) :
    ∃ rest, StartsBefore v t rest := by
  fun_induction readFrom v held text with
  | case1 held => exact ⟨[], startsBefore_of_mem_fragment h hheld⟩
  | case2 held c rest token hfirst ih =>
    rcases List.mem_append.mp h with h | h
    · exact ⟨c :: rest, startsBefore_of_mem_fragment h hheld⟩
    rcases List.mem_cons.mp h with rfl | h
    · refine ⟨rest.drop (t.text.length - 1), (prefix_first? hfirst).2, ?_⟩
      rw [drop_first? hfirst, if_neg (first?_kind hfirst), hfirst]
    · exact ih h nofun
  | case3 held c rest hfirst ih =>
    refine ih h fun _ => ?_
    cases held with
    | nil => exact hfirst
    | cons d held =>
      rw [List.reverse_cons, List.append_assoc]
      exact hheld nofun

theorem mem_read (h : t ∈ read v text) : ∃ rest, StartsBefore v t rest :=
  startsBefore_of_mem_readFrom h nofun

theorem flatMap_readFrom (v : Vocabulary) (held rest : List Char) :
    (readFrom v held rest).flatMap (·.text) = held.reverse ++ rest := by
  fun_induction readFrom v held rest with
  | case1 held => rw [flatMap_fragment, List.append_nil]
  | case2 held c rest token hfirst ih =>
    rw [List.flatMap_append, List.flatMap_cons, flatMap_fragment, ih, ← drop_first? hfirst]
    rfl
  | case3 held c rest hfirst ih => rw [ih, List.reverse_cons, List.append_assoc]; rfl

theorem flatMap_read (v : Vocabulary) (s : List Char) :
    (read v s).flatMap (·.text) = Text.squeeze s := flatMap_readFrom v [] _

theorem read_eq_single {k : TokenKind} (h : first? v s = some ⟨k, s⟩) (hs : Text.squeeze s = s) :
    read v s = [⟨k, s⟩] := by
  have hne := (prefix_first? h).2
  unfold read
  rw [hs]
  cases s with
  | nil => exact absurd rfl hne
  | cons c rest =>
    rw [readFrom, h]
    simp [fragment, readFrom]

-- ---------------------------------------------------------------------------
-- What the kind of a token says
-- ---------------------------------------------------------------------------

namespace StartsBefore

theorem first?_eq (h : StartsBefore v t rest) (hk : t.kind ≠ .unknown) :
    first? v (t.text ++ rest) = some t := by
  rw [h.2, if_neg hk]

theorem word (h : StartsBefore v t rest) (hk : t.kind = .word) : ⟨t.text⟩ ∈ v.words := by
  rcases first?_eq_some (h.first?_eq (by rw [hk]; nofun)) with ⟨ht, hl⟩ | ⟨ht, -⟩ | ⟨_, _, -, ht, -⟩
  · rw [ht]
    exact Vocabulary.longest_mem hl
  · rw [ht] at hk; cases hk
  · rw [ht] at hk; cases hk

theorem number (h : StartsBefore v t rest) (hk : t.kind = .number) (hc : c ∈ t.text) :
    Text.isDigit c = true ∨ c = '.' := by
  rcases first?_eq_some (h.first?_eq (by rw [hk]; nofun)) with ⟨ht, -⟩ | ⟨ht, -⟩ | ⟨_, _, -, ht, -⟩
  · rw [ht] at hk; cases hk
  · rw [ht] at hc
    exact mem_numeral hc
  · rw [ht] at hk; cases hk

theorem operator (h : StartsBefore v t rest) (hk : t.kind = .operator) :
    ∃ c, t.text = [c] ∧ isOperator c = true ∧ ⟨t.text⟩ ∉ v.words := by
  rcases first?_eq_some (h.first?_eq (by rw [hk]; nofun)) with
    ⟨ht, -⟩ | ⟨ht, -⟩ | ⟨c, _, -, ht, hc, hl⟩
  · rw [ht] at hk; cases hk
  · rw [ht] at hk; cases hk
  · exact ⟨c, by rw [ht], hc, Vocabulary.not_mem_of_longest_eq_nil hl h.1⟩

theorem unknown (h : StartsBefore v t rest) (hk : t.kind = .unknown) :
    (∀ c, t.text = [c] → isOperator c = false) ∧ ⟨t.text⟩ ∉ v.words := by
  obtain ⟨hne, hfirst⟩ := h
  rw [if_pos hk] at hfirst
  cases ht : t.text with
  | nil => exact absurd ht hne
  | cons c cs =>
    rw [ht] at hfirst
    obtain ⟨hl, -, hc⟩ := first?_eq_none_iff.mp hfirst
    refine ⟨fun d hd => ?_, Vocabulary.not_mem_of_longest_eq_nil hl nofun⟩
    rw [← (List.cons.inj hd).1]
    exact hc

end StartsBefore

end Token

end Formula
