import Formula.Proofs.Outcome
import Formula.Proofs.Tokens
import Mathlib.Data.List.Chain
import Mathlib.Data.List.TakeWhile

/-!
# The tokens of a text

A text without blanks is cut into tokens in one way only: where a word starts stands the longest
word, elsewhere the longest number, or an operator, and all between them is one fragment. What a
vocabulary was made from matters only by the words that it has.
-/

namespace Formula

-- ---------------------------------------------------------------------------
-- What starts a text
-- ---------------------------------------------------------------------------

/-- The longest text of a kind at the start of another one. -/
structure Longest (P : List Char → Prop) (s text : List Char) : Prop where
  holds : P s
  starts : s <+: text
  longest : ∀ s', P s' → s' <+: text → s'.length ≤ s.length

def Starts (P : List Char → Prop) (text : List Char) : Prop :=
  ∃ s, s ≠ [] ∧ P s ∧ s <+: text

/-- The function gives the longest text of a kind at the start of a text, and the empty one if
there is none. -/
structure FindsLongest (P : List Char → Prop) (f : List Char → List Char) : Prop where
  starts : ∀ text, f text <+: text
  holds : ∀ text, f text ≠ [] → P (f text)
  longest : ∀ {s text}, P s → s <+: text → s.length ≤ (f text).length

namespace FindsLongest

variable {P : List Char → Prop} {f : List Char → List Char} {s text : List Char}

theorem starts_iff (h : FindsLongest P f) : Starts P text ↔ f text ≠ [] := by
  refine ⟨?_, fun hne => ⟨f text, hne, h.holds text hne, h.starts text⟩⟩
  rintro ⟨s, hne, hs, hp⟩ hnil
  have hle := h.longest hs hp
  rw [hnil] at hle
  exact hne (List.eq_nil_of_length_eq_zero (Nat.le_zero.mp hle))

theorem longest_iff (h : FindsLongest P f) (hne : s ≠ []) : Longest P s text ↔ f text = s := by
  constructor
  · intro hs
    have hle := h.longest hs.holds hs.starts
    have hp := List.prefix_of_prefix_length_le hs.starts (h.starts text) hle
    have hfound : f text ≠ [] := fun hnil => hne (List.prefix_nil.mp (hnil ▸ hp))
    exact (hp.eq_of_length_le (hs.longest _ (h.holds text hfound) (h.starts text))).symm
  · rintro rfl
    exact ⟨h.holds text hne, h.starts text, fun _ => h.longest⟩

end FindsLongest

theorem Vocabulary.findsLongest (v : Vocabulary) : FindsLongest (⟨·⟩ ∈ v.words) v.longest :=
  ⟨v.prefix_longest, fun _ => longest_mem, length_le_longest⟩

-- ---------------------------------------------------------------------------
-- Numbers and operators
-- ---------------------------------------------------------------------------

def IsWhole (text : List Char) : Prop := text ≠ [] ∧ ∀ c ∈ text, Text.isDigit c = true

inductive IsNumeral : List Char → Prop
  | whole : IsWhole s → IsNumeral s
  | decimal : IsWhole s → IsWhole fraction → IsNumeral (s ++ '.' :: fraction)

def IsSymbol (text : List Char) : Prop := ∃ c, text = [c] ∧ Token.isOperator c = true

namespace Token

variable {v : Vocabulary} {t : Token} {ts : List Token} {s held later text : List Char}

theorem isWhole_takeWhile (h : text.takeWhile Text.isDigit ≠ []) :
    IsWhole (text.takeWhile Text.isDigit) :=
  ⟨h, fun _ => List.all_eq_true.mp List.all_takeWhile _⟩

theorem isNumeral_numeral (h : numeral text ≠ []) : IsNumeral (numeral text) := by
  revert h
  simp only [numeral]
  split
  · exact absurd rfl
  rename_i hwhole
  replace hwhole := isWhole_takeWhile (by simpa using hwhole)
  split
  · split
    · exact fun _ => .whole hwhole
    · rename_i hfraction
      exact fun _ => .decimal hwhole (isWhole_takeWhile (by simpa using hfraction))
  · exact fun _ => .whole hwhole

theorem takeWhile_prefix_numeral (text : List Char) :
    text.takeWhile Text.isDigit <+: numeral text := by
  simp only [numeral]
  split
  · rename_i h
    simp [List.isEmpty_iff.mp h]
  split
  · split
    · exact List.prefix_refl _
    · exact List.prefix_append _ _
  · exact List.prefix_refl _

theorem numeral_decimal (hs : IsWhole s) (hf : IsWhole fraction) (later : List Char) :
    numeral (s ++ '.' :: (fraction ++ later)) =
      s ++ '.' :: (fraction ++ later.takeWhile Text.isDigit) := by
  have htake : (s ++ '.' :: (fraction ++ later)).takeWhile Text.isDigit = s := by
    rw [List.takeWhile_append_of_pos hs.2, List.takeWhile_cons_of_neg (by decide), List.append_nil]
  simp [numeral, htake, List.takeWhile_append_of_pos hf.2, hs.1, hf.1]

theorem findsLongest_numeral : FindsLongest IsNumeral numeral where
  starts := prefix_numeral
  holds _ := isNumeral_numeral
  longest {s text} hs hp := by
    cases hs with
    | whole hs =>
      obtain ⟨later, rfl⟩ := hp
      have hdigits := takeWhile_prefix_numeral (s ++ later)
      rw [List.takeWhile_append_of_pos hs.2] at hdigits
      exact ((List.prefix_append s _).trans hdigits).length_le
    | decimal hs hf =>
      obtain ⟨later, rfl⟩ := hp
      rw [List.append_assoc, List.cons_append, numeral_decimal hs hf]
      simp

theorem starts_symbol : Starts IsSymbol (c :: rest) ↔ isOperator c = true := by
  constructor
  · rintro ⟨-, -, ⟨d, rfl, hd⟩, later, h⟩
    rwa [← (List.cons.inj h).1]
  · exact fun hc => ⟨[c], nofun, ⟨c, rfl, hc⟩, rest, rfl⟩

-- ---------------------------------------------------------------------------
-- The place of a token
-- ---------------------------------------------------------------------------

def NothingStarts (P : List Char → Prop) (text : List Char) : Prop :=
  ¬ Starts P text ∧ ¬ Starts IsNumeral text ∧ ¬ Starts IsSymbol text

/-- Nothing starts anywhere in a text that stands right before `later`. -/
def Unknown (P : List Char → Prop) (s later : List Char) : Prop :=
  ∀ before c after, s = before ++ c :: after → NothingStarts P (c :: (after ++ later))

/-- The token is the right one for its place, which is before the text `later`; `P` says what is a
word. -/
def Fits (P : List Char → Prop) (t : Token) (later : List Char) : Prop :=
  match t.kind with
  | .word => Longest P t.text (t.text ++ later)
  | .number => Longest IsNumeral t.text (t.text ++ later) ∧ ¬ Starts P (t.text ++ later)
  | .operator => IsSymbol t.text ∧ ¬ Starts P (t.text ++ later) ∧
      ¬ Starts IsNumeral (t.text ++ later)
  | .unknown => Unknown P t.text later

theorem nothingStarts_iff :
    NothingStarts (⟨·⟩ ∈ v.words) (c :: rest) ↔ first? v (c :: rest) = none := by
  rw [NothingStarts, v.findsLongest.starts_iff, findsLongest_numeral.starts_iff, not_ne_iff,
    not_ne_iff, starts_symbol, Bool.not_eq_true, first?_eq_none_iff]

theorem unknown_nil (P : List Char → Prop) (later : List Char) : Unknown P [] later := by
  simp [Unknown]

theorem unknown_cons {P : List Char → Prop} :
    Unknown P (c :: s) later ↔ NothingStarts P (c :: (s ++ later)) ∧ Unknown P s later :=
  forall_split_cons

theorem unknown_concat {P : List Char → Prop} (h : Unknown P s (c :: later))
    (hc : NothingStarts P (c :: later)) : Unknown P (s ++ [c]) later := by
  induction s with
  | nil => exact unknown_cons.mpr ⟨hc, unknown_nil P later⟩
  | cons d s ih =>
    obtain ⟨hd, hs⟩ := unknown_cons.mp h
    rw [List.cons_append, unknown_cons, List.append_assoc]
    exact ⟨hd, ih hs⟩

theorem fits_iff (hk : t.kind ≠ .unknown) (hne : t.text ≠ []) :
    Fits (⟨·⟩ ∈ v.words) t later ↔ first? v (t.text ++ later) = some t := by
  obtain ⟨kind, s⟩ := t
  simp only at hne
  rw [first?_eq_some_iff]
  cases kind with
  | unknown => exact absurd rfl hk
  | word =>
    simp only [Fits, v.findsLongest.longest_iff hne, hne, ne_eq, not_false_eq_true, and_true]
  | number =>
    simp only [Fits, findsLongest_numeral.longest_iff hne, v.findsLongest.starts_iff, hne, ne_eq,
      not_false_eq_true, and_true, Decidable.not_not]
  | operator =>
    simp only [Fits, findsLongest_numeral.starts_iff, v.findsLongest.starts_iff, ne_eq,
      Decidable.not_not]
    refine and_congr_left fun _ => ?_
    constructor
    · rintro ⟨c, rfl, hc⟩
      exact ⟨c, later, rfl, rfl, hc⟩
    · rintro ⟨c, -, -, rfl, hc⟩
      exact ⟨c, rfl, hc⟩

-- ---------------------------------------------------------------------------
-- All tokens
-- ---------------------------------------------------------------------------

/-- The tokens of a text without blanks; `P` says what is a word. Each token fits its place, and no
fragment is cut in two. -/
structure Tokenizes (P : List Char → Prop) (text : List Char) (ts : List Token) : Prop where
  texts : ts.flatMap (·.text) = text
  nonempty : ∀ t ∈ ts, t.text ≠ []
  fits : ∀ before t after, ts = before ++ t :: after → Fits P t (after.flatMap (·.text))
  apart : ts.IsChain fun t u => t.kind = .unknown → u.kind ≠ .unknown

variable {P : List Char → Prop}

theorem tokenizes_nil (P : List Char → Prop) : Tokenizes P [] [] :=
  ⟨rfl, nofun, by simp, .nil⟩

theorem tokenizes_cons : Tokenizes P text (t :: ts) ↔
    ∃ later, text = t.text ++ later ∧ t.text ≠ [] ∧ Fits P t later ∧
      (t.kind = .unknown → ∀ u ∈ ts.head?, u.kind ≠ .unknown) ∧ Tokenizes P later ts := by
  constructor
  · rintro ⟨rfl, hne, hfits, hapart⟩
    rw [List.forall_mem_cons] at hne
    rw [forall_split_cons] at hfits
    rw [List.isChain_cons] at hapart
    exact ⟨_, List.flatMap_cons, hne.1, hfits.1, fun hk u hu => hapart.1 u hu hk, rfl, hne.2,
      hfits.2, hapart.2⟩
  · rintro ⟨-, rfl, hne, hfits, hapart, rfl, hnonempty, hrest, hchain⟩
    exact ⟨List.flatMap_cons, List.forall_mem_cons.mpr ⟨hne, hnonempty⟩,
      forall_split_cons.mpr ⟨hfits, hrest⟩,
      List.isChain_cons.mpr ⟨fun u hu hk => hapart hk u hu, hchain⟩⟩

theorem tokenizes_fragment (h : Tokenizes P text ts) (hheld : Unknown P held.reverse text)
    (hts : ∀ u ∈ ts.head?, u.kind ≠ .unknown) :
    Tokenizes P (held.reverse ++ text) (fragment held ++ ts) := by
  cases held with
  | nil => exact h
  | cons c held => exact tokenizes_cons.mpr ⟨text, rfl, by simp, hheld, fun _ => hts, h⟩

theorem tokenizes_known (h : Tokenizes (⟨·⟩ ∈ v.words) later ts) (hne : t.text ≠ [])
    (hfirst : first? v (t.text ++ later) = some t) :
    Tokenizes (⟨·⟩ ∈ v.words) (t.text ++ later) (t :: ts) := by
  have hk := first?_kind hfirst
  exact tokenizes_cons.mpr
    ⟨later, rfl, hne, (fits_iff hk hne).mpr hfirst, fun hu => absurd hu hk, h⟩

theorem tokenizes_readFrom (hheld : Unknown (⟨·⟩ ∈ v.words) held.reverse text) :
    Tokenizes (⟨·⟩ ∈ v.words) (held.reverse ++ text) (readFrom v held text) := by
  fun_induction readFrom v held text with
  | case1 held => simpa using tokenizes_fragment (tokenizes_nil _) hheld (by simp)
  | case2 held c rest token hfirst ih =>
    have hne := (prefix_first? hfirst).2
    have hk := first?_kind hfirst
    have htext := drop_first? hfirst
    rw [← htext] at hfirst hheld ⊢
    have htokens := tokenizes_known (ih (unknown_nil _ _)) hne hfirst
    exact tokenizes_fragment htokens hheld (by simpa using hk)
  | case3 held c rest hfirst ih =>
    rw [← List.singleton_append, ← List.append_assoc, ← List.reverse_cons]
    refine ih ?_
    rw [List.reverse_cons]
    exact unknown_concat hheld (nothingStarts_iff.mpr hfirst)

-- ---------------------------------------------------------------------------
-- The only way to cut a text
-- ---------------------------------------------------------------------------

theorem readFrom_known (h : first? v (t.text ++ later) = some t) (hne : t.text ≠ []) :
    readFrom v held (t.text ++ later) = fragment held ++ t :: readFrom v [] later := by
  cases htext : t.text with
  | nil => exact absurd htext hne
  | cons c rest =>
    rw [htext, List.cons_append] at h
    rw [List.cons_append, readFrom, h]
    simp [htext]

theorem readFrom_unknown (h : Unknown (⟨·⟩ ∈ v.words) s later) :
    readFrom v held (s ++ later) = readFrom v (s.reverse ++ held) later := by
  induction s generalizing held with
  | nil => rfl
  | cons c s ih =>
    obtain ⟨hc, hs⟩ := unknown_cons.mp h
    rw [List.cons_append, readFrom, nothingStarts_iff.mp hc]
    rw [ih hs, List.reverse_cons, List.append_assoc, List.singleton_append]

theorem readFrom_of_tokenizes (h : Tokenizes (⟨·⟩ ∈ v.words) text ts)
    (hheld : held ≠ [] → ∀ u ∈ ts.head?, u.kind ≠ .unknown) :
    readFrom v held text = fragment held ++ ts := by
  -- An unknown token becomes the fragment that is held while the tokens after it are read.
  induction ts generalizing held text with
  | nil =>
    obtain rfl := h.texts
    simp [readFrom]
  | cons t ts ih =>
    obtain ⟨later, rfl, hne, hfits, hapart, hlater⟩ := tokenizes_cons.mp h
    by_cases hk : t.kind = .unknown
    · obtain rfl : held = [] := by_contra fun hne => hheld hne t rfl hk
      obtain ⟨k, s⟩ := t
      obtain rfl : k = .unknown := hk
      have hs : fragment s.reverse = [⟨.unknown, s⟩] := by simpa [fragment] using hne
      rw [readFrom_unknown hfits, List.append_nil, ih hlater fun _ => hapart rfl, hs]
      rfl
    · rw [fits_iff hk hne] at hfits
      rw [readFrom_known hfits hne, ih hlater (absurd rfl)]
      rfl

theorem tokenizes_iff : Tokenizes (⟨·⟩ ∈ v.words) text ts ↔ ts = readFrom v [] text := by
  constructor
  · exact fun h => (readFrom_of_tokenizes h (absurd rfl)).symm
  · rintro rfl
    have hheld : Unknown (⟨·⟩ ∈ v.words) ([] : List Char).reverse text := unknown_nil _ _
    exact tokenizes_readFrom hheld

end Token

-- ---------------------------------------------------------------------------
-- Names as words
-- ---------------------------------------------------------------------------

def IsWordAmong (variableNames functions : List String) (s : List Char) : Prop :=
  ∃ name ∈ variableNames ++ functions ++ Builtin.constantNames ++ Builtin.functionNames,
    name.toList = s

theorem Vocabulary.mem_words_iff {variableNames functions : List String} {s : List Char} :
    ⟨s⟩ ∈ (ofNames variableNames functions).words ↔ IsWordAmong variableNames functions s := by
  have hs : Word.mk s = .ofString (.ofList s) := congrArg Word.mk String.toList_ofList.symm
  rw [hs, mem_words_ofNames, IsWordAmong]
  constructor
  · exact fun h => ⟨_, h, String.toList_ofList⟩
  · rintro ⟨name, hname, rfl⟩
    rwa [String.ofList_toList]

/-- The tokens that are read of a text are the only ones that it can be cut into. The order of the
names makes no difference to them, nor which of the names are those of functions. -/
theorem read_is_the_only_tokenization (variableNames functions : List String) (text : List Char) :
    (∀ ts, Token.Tokenizes (IsWordAmong variableNames functions) (Text.squeeze text) ts ↔
      ts = Token.read (.ofNames variableNames functions) text) ∧
    ∀ variableNames' functions' : List String,
      (∀ name, name ∈ variableNames ++ functions ↔ name ∈ variableNames' ++ functions') →
      Token.read (.ofNames variableNames' functions') text =
        Token.read (.ofNames variableNames functions) text := by
  have hread (names others : List String) (ts : List Token) :
      Token.Tokenizes (IsWordAmong names others) (Text.squeeze text) ts ↔
        ts = Token.read (.ofNames names others) text := by
    have hwords : IsWordAmong names others =
        (⟨·⟩ ∈ (Vocabulary.ofNames names others).words) :=
      funext fun s => propext Vocabulary.mem_words_iff.symm
    rw [hwords, Token.tokenizes_iff, Token.read]
  refine ⟨hread variableNames functions, fun variableNames' functions' hsame => ?_⟩
  have hwords : IsWordAmong variableNames' functions' = IsWordAmong variableNames functions := by
    simp only [List.mem_append] at hsame
    funext s
    simp only [IsWordAmong, List.mem_append, hsame]
  rw [← hread, ← hwords, hread]

/-- Of the words that start a text the longest is taken, wherever it stands among the names. A
period that ends a number is no part of it. -/
theorem read_is_the_only_tokenization_swapped :
    let ts : List Token :=
      [⟨.number, ['2']⟩, ⟨.word, ['x', '_', '1']⟩, ⟨.operator, ['+']⟩, ⟨.number, ['3']⟩,
        ⟨.unknown, ['.', 'y']⟩, ⟨.word, ['f']⟩]
    let text := "2 x_1 + 3. yf".toList
    Token.Tokenizes (IsWordAmong ["x", "x_1"] ["f"]) (Text.squeeze text) ts ∧
      Token.read (.ofNames ["x_1", "f"] ["x"]) text = ts := by
  intro ts text
  obtain ⟨hread, hsame⟩ := read_is_the_only_tokenization ["x", "x_1"] ["f"] text
  have hts : ts = Token.read (.ofNames ["x", "x_1"] ["f"]) text := by decide +kernel
  refine ⟨(hread ts).mpr hts, ?_⟩
  rw [hsame ["x_1", "f"] ["x"] (by simp; tauto), hts]

end Formula
