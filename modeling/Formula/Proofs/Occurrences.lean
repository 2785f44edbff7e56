import Formula.Proofs.FoundNames
import Formula.Proofs.Tokenization

/-!
# Identifiers in a text

The scan for identifiers and the scan for identifiers before an opening bracket see the same ones:
those that are no part of a longer identifier. So the functions and the variables that are found
divide them up, and nothing else is found.
-/

namespace Formula

-- ---------------------------------------------------------------------------
-- Successive texts of a kind
-- ---------------------------------------------------------------------------

/-- The successive texts of a kind in a text, each with what follows it: the longest one at the
first place where one starts, and then those of the text after it. -/
inductive Scanned (P : List Char → Prop) : List Char → List (List Char × List Char) → Prop
  | done : Scanned P [] []
  | found : s ≠ [] → Longest P s text → Scanned P (text.drop s.length) later →
      Scanned P text ((s, text.drop s.length) :: later)
  | skip : ¬ Starts P (c :: rest) → Scanned P rest later → Scanned P (c :: rest) later

theorem Longest.eq_nil {P : List Char → Prop} {s r after : List Char}
    (h : Longest P s (s ++ after)) (hr : r <+: after) (hlonger : P (s ++ r)) : r = [] := by
  have hlength := h.longest _ hlonger ((List.prefix_append_right_inj s).mpr hr)
  rw [List.length_append] at hlength
  exact List.eq_nil_of_length_eq_zero (by omega)

namespace Scanned

variable {P : List Char → Prop} {s text after : List Char}
  {found found' : List (List Char × List Char)}

theorem found_append (hne : s ≠ []) (hs : Longest P s (s ++ after)) (h : Scanned P after found) :
    Scanned P (s ++ after) ((s, after) :: found) := by
  have hdrop : (s ++ after).drop s.length = after := List.drop_left
  have hcons := Scanned.found hne hs (hdrop.symm ▸ h)
  rwa [hdrop] at hcons

theorem skip_append (hnone : ∀ l r, s = l ++ r → r ≠ [] → ¬ Starts P (r ++ after))
    (h : Scanned P after found) : Scanned P (s ++ after) found := by
  induction s with
  | nil => exact h
  | cons c s ih =>
    refine .skip (hnone [] (c :: s) rfl (List.cons_ne_nil _ _)) (ih fun l r hs => ?_)
    exact hnone (c :: l) r (congrArg (c :: ·) hs)

theorem of_not_starts (h : Scanned P (c :: rest) found) (hnone : ¬ Starts P (c :: rest)) :
    Scanned P rest found := by
  cases h with
  | found hne hs _ => exact absurd ⟨_, hne, hs.holds, hs.starts⟩ hnone
  | skip _ h => exact h

theorem unique (h : Scanned P text found) (h' : Scanned P text found') : found = found' := by
  induction h generalizing found' with
  | done =>
    cases h' with
    | done => rfl
    | found hne hs _ => exact absurd (List.prefix_nil.mp hs.starts) hne
  | @found s text later hne hs _ ih =>
    cases h' with
    | done => exact absurd (List.prefix_nil.mp hs.starts) hne
    | @found s' _ _ hne' hs' h' =>
      have hlength := Nat.le_antisymm (hs'.longest s hs.holds hs.starts)
        (hs.longest s' hs'.holds hs'.starts)
      obtain rfl := (List.prefix_of_prefix_length_le hs.starts hs'.starts hlength.le).eq_of_length
        hlength
      rw [ih h']
    | skip hnone _ => exact absurd ⟨s, hne, hs.holds, hs.starts⟩ hnone
  | skip hnone _ ih => exact ih (h'.of_not_starts hnone)

end Scanned

namespace Name

variable {text s l r mid name after : List Char}

-- ---------------------------------------------------------------------------
-- The form of an identifier
-- ---------------------------------------------------------------------------

theorem isIdentifier_iff : isIdentifier text = true ↔ ∃ c body quotes,
    text = c :: (body ++ quotes) ∧ isStart c = true ∧ (∀ d ∈ body, isBody d = true) ∧
      body.getLast? ≠ some '.' ∧ ∀ d ∈ quotes, isApostrophe d = true := by
  constructor
  · intro h
    have htext := trimEnd_append isApostrophe text
    unfold isIdentifier at h
    split at h
    · cases h
    rename_i c body hbody
    simp only [Bool.and_eq_true, List.all_eq_true, bne_iff_ne] at h
    rw [hbody, List.cons_append] at htext
    refine ⟨c, body, _, htext.symm, h.1.1, h.1.2, h.2, fun d hd => ?_⟩
    exact List.all_eq_true.mp List.all_takeWhile d (List.mem_reverse.mp hd)
  · rintro ⟨c, body, quotes, rfl, hc, hbody, hlast, hquotes⟩
    have hstem : ∀ d ∈ c :: body, isApostrophe d = false :=
      List.forall_mem_cons.mpr ⟨isApostrophe_of_isBody (by simp [isBody, hc]),
        fun d hd => isApostrophe_of_isBody (hbody d hd)⟩
    rw [isIdentifier, ← List.cons_append, trimEnd_append_of_all hstem hquotes]
    simpa [hc, hlast] using hbody

theorem ne_nil_of_isIdentifier (h : isIdentifier text = true) : text ≠ [] := by
  rintro rfl
  cases h

/-- Identifiers that overlap make up one identifier. -/
theorem isIdentifier_overlap (hl : isIdentifier (l ++ mid) = true)
    (hr : isIdentifier (mid ++ r) = true) (hmid : mid ≠ []) :
    isIdentifier (l ++ (mid ++ r)) = true := by
  obtain ⟨d, body', quotes', hright, hd, hbody', hlast', hquotes'⟩ := isIdentifier_iff.mp hr
  cases l with
  | nil => exact hr
  | cons c before =>
    obtain ⟨_, body, quotes, hleft, hc, hbody, -, hquotes⟩ := isIdentifier_iff.mp hl
    obtain ⟨rfl, hrest⟩ := List.cons.inj hleft
    -- What the two have in common starts with no apostrophe, so all before it belongs to the body.
    have hbefore : ∀ x ∈ before, isBody x = true := by
      obtain ⟨d', mid, rfl⟩ := List.exists_cons_of_ne_nil hmid
      obtain ⟨rfl, -⟩ := List.cons.inj hright
      rcases List.append_eq_append_iff.mp hrest with ⟨_, rfl, -⟩ | ⟨between, rfl, hbetween⟩
      · exact fun x hx => hbody x (List.mem_append_left _ hx)
      · have hquote := hquotes d' (hbetween ▸ by simp)
        rw [isApostrophe_of_isBody (by simp [isBody, hd])] at hquote
        cases hquote
    refine isIdentifier_iff.mpr ⟨c, before ++ d :: body', quotes', by simp [hright], hc, ?_, ?_,
      hquotes'⟩
    · intro x hx
      rcases List.mem_append.mp hx with hx | hx
      · exact hbefore x hx
      · rcases List.mem_cons.mp hx with rfl | hx
        · simp [isBody, hd]
        · exact hbody' x hx
    · rw [List.getLast?_append_cons]
      cases body' with
      | nil =>
        rintro ⟨⟩
        exact absurd hd (by decide)
      | cons _ _ => exact hlast'

-- ---------------------------------------------------------------------------
-- The scan at one place
-- ---------------------------------------------------------------------------

theorem prefix_takeWhile {p : Char → Bool} (h : s <+: text) (hs : ∀ c ∈ s, p c = true) :
    s <+: text.takeWhile p := by
  obtain ⟨rest, rfl⟩ := h
  rw [List.takeWhile_append_of_pos hs]
  exact List.prefix_append _ _

theorem trimEnd_starts (p : Char → Bool) (text : List Char) : trimEnd p text <+: text :=
  ⟨_, trimEnd_append p text⟩

theorem prefix_trimEnd {p : Char → Bool} (h : s <+: text) (hlast : ∀ c ∈ s.getLast?, p c = false) :
    s <+: trimEnd p text := by
  rcases List.prefix_or_prefix_of_prefix h (trimEnd_starts p text) with hs | ⟨more, rfl⟩
  · exact hs
  rcases List.eq_nil_or_concat more with rfl | ⟨more, c, rfl⟩
  · simp
  -- Whatever is longer than the trimmed text ends in a character that was trimmed.
  obtain ⟨rest, hrest⟩ := h
  have hcut := (trimEnd_append p text).trans hrest.symm
  rw [List.append_assoc, List.append_cancel_left_eq] at hcut
  have hc : c ∈ text.reverse.takeWhile p := by
    rw [← List.mem_reverse, hcut]
    simp
  have hkept := hlast c (by simp)
  rw [List.all_eq_true.mp List.all_takeWhile c hc] at hkept
  cases hkept

theorem append_of_scan? (h : scan? text = some (name, after)) : text = name ++ after := by
  cases text with
  | nil => cases h
  | cons c rest =>
    simp only [scan?] at h
    split at h
    case isFalse => cases h
    have hbody := (trimEnd_starts (· == '.') _).trans (List.takeWhile_prefix (l := rest) isBody)
    generalize trimEnd (· == '.') (rest.takeWhile isBody) = body at h hbody
    obtain ⟨later, rfl⟩ := hbody
    cases h
    simp

theorem length_le_of_scan? (h : scan? text = some (name, after)) (hs : isIdentifier s = true)
    (hp : s <+: text) : s.length ≤ name.length := by
  obtain ⟨c, own, quotes, rfl, hc, hown, hlast, hquotes⟩ := isIdentifier_iff.mp hs
  obtain ⟨later, rfl⟩ := hp
  rw [List.cons_append, List.append_assoc] at h
  have hprefix : own <+: trimEnd (· == '.') ((own ++ (quotes ++ later)).takeWhile isBody) := by
    refine prefix_trimEnd (prefix_takeWhile (List.prefix_append _ _) hown) fun d hd => ?_
    exact beq_eq_false_iff_ne.mpr fun hdot => hlast (hdot ▸ hd)
  have hbody := (trimEnd_starts (· == '.') _).trans
    (List.takeWhile_prefix (l := own ++ (quotes ++ later)) isBody)
  have hchars : ∀ d ∈ trimEnd (· == '.') ((own ++ (quotes ++ later)).takeWhile isBody),
      isBody d = true := fun d hd =>
    List.all_eq_true.mp List.all_takeWhile d (mem_of_mem_trimEnd hd)
  simp only [scan?, hc, ↓reduceIte, Option.some.injEq, Prod.mk.injEq] at h
  obtain ⟨rfl, -⟩ := h
  generalize trimEnd (· == '.') ((own ++ (quotes ++ later)).takeWhile isBody) = body at *
  obtain ⟨more, rfl⟩ := hprefix
  cases more with
  | nil =>
    -- The scan goes on with the apostrophes.
    rw [List.append_nil, List.drop_left, List.takeWhile_append_of_pos hquotes]
    simp
  | cons m more =>
    -- The scan reads more characters of the body, so there are no apostrophes here.
    cases quotes with
    | nil => simp
    | cons q quotes =>
      obtain ⟨rest, hrest⟩ := hbody
      rw [List.append_assoc, List.append_cancel_left_eq] at hrest
      obtain ⟨rfl, -⟩ := List.cons.inj hrest
      have hquote := hquotes m List.mem_cons_self
      rw [isApostrophe_of_isBody (hchars m (by simp))] at hquote
      cases hquote

theorem scan?_eq_none (h : scan? text = none) (hs : isIdentifier s = true) : ¬ s <+: text := by
  obtain ⟨c, body, quotes, rfl, hc, -⟩ := isIdentifier_iff.mp hs
  rintro ⟨later, rfl⟩
  simp [scan?, hc] at h

theorem findsLongest_scan? :
    FindsLongest (isIdentifier · = true) fun text => ((scan? text).map (·.1)).getD [] where
  starts text := by
    cases h : scan? text with
    | none => exact List.nil_prefix
    | some found => exact ⟨_, (append_of_scan? h).symm⟩
  holds text hne := by
    cases h : scan? text with
    | none => simp [h] at hne
    | some found => exact isIdentifier_of_scan? h
  longest {s text} hs hp := by
    cases h : scan? text with
    | none => exact absurd hp (scan?_eq_none h hs)
    | some found => exact length_le_of_scan? h hs hp

theorem starts_iff : Starts (isIdentifier · = true) text ↔ ∃ found, scan? text = some found := by
  rw [findsLongest_scan?.starts_iff]
  cases h : scan? text with
  | none => simp
  | some found => simpa using ne_nil_of_isIdentifier (isIdentifier_of_scan? h)

theorem longest_of_scan? (h : scan? text = some (name, after)) :
    Longest (isIdentifier · = true) name text :=
  (findsLongest_scan?.longest_iff (ne_nil_of_isIdentifier (isIdentifier_of_scan? h))).mpr
    (by simp [h])

-- ---------------------------------------------------------------------------
-- Identifiers, and identifiers before an opening bracket
-- ---------------------------------------------------------------------------

/-- An identifier with the bracket that opens the arguments of a call. -/
def IsCall (s : List Char) : Prop := ∃ name, isIdentifier name = true ∧ s = name ++ ['(']

def beforeBracket : List (List Char × List Char) → List (List Char × List Char)
  | [] => []
  | (name, '(' :: after) :: rest => (name ++ ['('], after) :: beforeBracket rest
  | _ :: rest => beforeBracket rest

theorem scanned_identifiers (text : List Char) : ∃ found,
    Scanned (isIdentifier · = true) text found ∧
      identifiers text = found.map fun occurrence => String.ofList occurrence.1 := by
  fun_induction identifiers text with
  | case1 text name after hscan ih =>
    obtain ⟨later, hlater, hnames⟩ := ih
    have hname := longest_of_scan? hscan
    have hne := ne_nil_of_isIdentifier (isIdentifier_of_scan? hscan)
    obtain rfl := append_of_scan? hscan
    exact ⟨(name, after) :: later, hlater.found_append hne hname, by simp [hnames]⟩
  | case2 => exact ⟨[], .done, rfl⟩
  | case3 c rest hscan ih =>
    obtain ⟨found, hfound, hnames⟩ := ih
    exact ⟨found, .skip (by simp [starts_iff, hscan]) hfound, hnames⟩

theorem not_mem_of_isIdentifier (h : isIdentifier name = true) : '(' ∉ name := by
  intro hmem
  have hword := isWordChar_of_isWord (isWord_of_isIdentifier h) hmem
  rw [not_isWordChar (by simp)] at hword
  cases hword

theorem scan?_of_bracket (h : isIdentifier name = true) (after : List Char) :
    scan? (name ++ '(' :: after) = some (name, '(' :: after) := by
  cases hscan : scan? (name ++ '(' :: after) with
  | none => exact absurd (List.prefix_append _ _) (scan?_eq_none hscan h)
  | some found =>
    obtain ⟨longer, rest⟩ := found
    have htext := append_of_scan? hscan
    have hlength := length_le_of_scan? hscan h (List.prefix_append _ _)
    -- A longer identifier would have the bracket in it.
    obtain ⟨more, rfl⟩ := List.prefix_of_prefix_length_le (List.prefix_append name _)
      ⟨rest, htext.symm⟩ hlength
    rw [List.append_assoc, List.append_cancel_left_eq] at htext
    cases more with
    | nil => rw [List.append_nil, htext, List.nil_append]
    | cons c more =>
      obtain ⟨rfl, -⟩ := List.cons.inj htext
      exact absurd (by simp) (not_mem_of_isIdentifier (isIdentifier_of_scan? hscan))

theorem starts_call_iff :
    Starts IsCall text ↔ ∃ name after, scan? text = some (name, '(' :: after) := by
  constructor
  · rintro ⟨_, -, ⟨name, hname, rfl⟩, after, rfl⟩
    rw [List.append_assoc]
    exact ⟨name, after, scan?_of_bracket hname after⟩
  · rintro ⟨name, after, hscan⟩
    obtain rfl := append_of_scan? hscan
    exact ⟨name ++ ['('], by simp, ⟨name, isIdentifier_of_scan? hscan, rfl⟩, after, by simp⟩

theorem longest_call (h : scan? text = some (name, '(' :: after)) :
    Longest IsCall (name ++ ['(']) text where
  holds := ⟨name, isIdentifier_of_scan? h, rfl⟩
  starts := ⟨after, by rw [append_of_scan? h]; simp⟩
  longest := by
    rintro _ ⟨name', hname', rfl⟩ hp
    have hlength := length_le_of_scan? h hname' ((List.prefix_append _ _).trans hp)
    simpa using hlength

theorem scanned_calls (text : List Char) : ∃ found, Scanned IsCall text found ∧
    calls text = found.map fun occurrence => String.ofList occurrence.1.dropLast := by
  fun_induction calls text with
  | case1 text name after hscan ih =>
    obtain ⟨later, hlater, hnames⟩ := ih
    have hname := longest_call hscan
    have htext : text = name ++ ['('] ++ after := by rw [append_of_scan? hscan]; simp
    rw [htext] at hname ⊢
    exact ⟨(name ++ ['('], after) :: later, hlater.found_append (by simp) hname, by simp [hnames]⟩
  | case2 => exact ⟨[], .done, rfl⟩
  | case3 c rest hscan ih =>
    obtain ⟨found, hfound, hnames⟩ := ih
    exact ⟨found, .skip (by simpa [starts_call_iff] using hscan) hfound, hnames⟩

theorem not_starts_call (h : Longest (isIdentifier · = true) (l ++ r) (l ++ r ++ after))
    (hr : r ≠ []) (hafter : after.head? ≠ some '(') : ¬ Starts IsCall (r ++ after) := by
  rintro ⟨_, -, ⟨name, hname, rfl⟩, later, hlater⟩
  rw [List.append_assoc, List.singleton_append] at hlater
  rcases List.append_eq_append_iff.mp hlater with ⟨more, rfl, hmore⟩ | ⟨more, rfl, rfl⟩
  · rcases List.cons_eq_append_iff.mp hmore with ⟨-, rfl⟩ | ⟨more, rfl, -⟩
    · exact hafter rfl
    · exact not_mem_of_isIdentifier h.holds (by simp)
  · have hlonger := isIdentifier_overlap h.holds hname hr
    rw [← List.append_assoc] at hlonger
    obtain rfl := h.eq_nil (List.prefix_append _ _) hlonger
    exact hafter rfl

theorem beforeBracket_cons (h : after.head? ≠ some '(') (later : List (List Char × List Char)) :
    beforeBracket ((name, after) :: later) = beforeBracket later := by
  rw [beforeBracket]
  rintro name rest ⟨⟩
  exact h rfl

/-- Both scans see the same identifiers. -/
theorem scanned_beforeBracket (h : Scanned (isIdentifier · = true) text found) :
    Scanned IsCall text (beforeBracket found) := by
  induction h with
  | done => exact .done
  | @found name text later hne hname _ ih =>
    obtain ⟨after, rfl⟩ := hname.starts
    rw [List.drop_left] at ih ⊢
    by_cases hafter : after.head? = some '('
    · obtain ⟨rest, rfl⟩ := List.head?_eq_some_iff.mp hafter
      -- The next identifier comes after the bracket, for the one scan as for the other.
      have hrest := ih.of_not_starts fun hcall => by
        obtain ⟨_, _, hscan⟩ := starts_call_iff.mp hcall
        cases hscan
      have htext : name ++ '(' :: rest = name ++ ['('] ++ rest := by simp
      have hcall := longest_call (scan?_of_bracket hname.holds rest)
      rw [htext] at hcall ⊢
      exact hrest.found_append (by simp) hcall
    · have hnone : ∀ l r, name = l ++ r → r ≠ [] → ¬ Starts IsCall (r ++ after) := by
        rintro l r rfl hr
        exact not_starts_call hname hr hafter
      rw [beforeBracket_cons hafter]
      exact ih.skip_append hnone
  | skip hnone _ ih =>
    refine .skip (fun hcall => hnone ?_) ih
    obtain ⟨name, after, hscan⟩ := starts_call_iff.mp hcall
    exact starts_iff.mpr ⟨_, hscan⟩

theorem mem_beforeBracket {name : String} :
    name ∈ (beforeBracket found).map (fun occurrence => String.ofList occurrence.1.dropLast) ↔
      ∃ after, (name.toList, '(' :: after) ∈ found := by
  induction found with
  | nil => simp [beforeBracket]
  | cons occurrence later ih =>
    obtain ⟨name', rest⟩ := occurrence
    by_cases hrest : rest.head? = some '('
    · obtain ⟨rest, rfl⟩ := List.head?_eq_some_iff.mp hrest
      rw [beforeBracket, List.map_cons, List.mem_cons, ih]
      simp only [List.dropLast_concat, List.mem_cons, Prod.mk.injEq, List.cons.injEq, true_and,
        exists_or]
      refine or_congr_left ⟨?_, ?_⟩
      · rintro rfl
        simp
      · rintro ⟨_, rfl, -⟩
        simp
    · rw [beforeBracket_cons hrest, ih]
      simp only [List.mem_cons, Prod.mk.injEq]
      refine exists_congr fun after => ⟨.inr, ?_⟩
      rintro (⟨-, rfl⟩ | hmem)
      · exact absurd rfl hrest
      · exact hmem

-- ---------------------------------------------------------------------------
-- Identifiers that are no part of a longer one
-- ---------------------------------------------------------------------------

/-- An identifier that stands in a text right before `after`, and is no part of a longer one. -/
def StandsAlone (text name after : List Char) : Prop :=
  isIdentifier name = true ∧ ∃ before, text = before ++ (name ++ after) ∧
    ∀ l r, l <:+ before → r <+: after → isIdentifier (l ++ (name ++ r)) = true → l = [] ∧ r = []

theorem standsAlone_of_mem (h : Scanned (isIdentifier · = true) text found)
    (hmem : (name, after) ∈ found) : StandsAlone text name after := by
  induction h with
  | done => cases hmem
  | @found s text later hne hs _ ih =>
    obtain ⟨rest, rfl⟩ := hs.starts
    rw [List.drop_left] at hmem ih
    rcases List.mem_cons.mp hmem with heq | hmem
    · obtain ⟨rfl, rfl⟩ := Prod.mk.inj heq
      refine ⟨hs.holds, [], rfl, fun l r hl hr hlonger => ?_⟩
      obtain rfl := List.suffix_nil.mp hl
      exact ⟨rfl, hs.eq_nil hr hlonger⟩
    · obtain ⟨hname, before, rfl, halone⟩ := ih hmem
      refine ⟨hname, s ++ before, by simp, fun l r hl hr hlonger => ?_⟩
      obtain ⟨more, hsplit⟩ := hl
      rcases List.append_eq_append_iff.mp hsplit with ⟨mid, rfl, rfl⟩ | ⟨mid, rfl, rfl⟩
      · by_cases hmid : mid = []
        · subst hmid
          exact halone before r (List.suffix_refl _) hr hlonger
        · rw [List.append_assoc] at hlonger
          have hwhole := isIdentifier_overlap hs.holds hlonger hmid
          rw [← List.append_assoc] at hwhole
          have hnil := hs.eq_nil (by simpa using hr) hwhole
          simp [ne_nil_of_isIdentifier hname] at hnil
      · exact halone l r (List.suffix_append _ _) hr hlonger
  | @skip c rest later hnone _ ih =>
    obtain ⟨hname, before, rfl, halone⟩ := ih hmem
    refine ⟨hname, c :: before, rfl, fun l r hl hr hlonger => ?_⟩
    rcases List.suffix_cons_iff.mp hl with rfl | hl
    · obtain ⟨more, rfl⟩ := hr
      exact absurd ⟨_, by simp, hlonger, more, by simp⟩ hnone
    · exact halone l r hl hr hlonger

theorem mem_of_standsAlone (h : Scanned (isIdentifier · = true) text found)
    (halone : StandsAlone text name after) : (name, after) ∈ found := by
  obtain ⟨hname, before, htext, halone⟩ := halone
  induction h generalizing before with
  | done => simp [ne_nil_of_isIdentifier hname] at htext
  | @found s text later hne hs _ ih =>
    obtain ⟨rest, rfl⟩ := hs.starts
    rw [List.drop_left] at ih ⊢
    rcases List.append_eq_append_iff.mp htext with ⟨mid, rfl, rfl⟩ | ⟨mid, rfl, hmid⟩
    · refine List.mem_cons_of_mem _ (ih mid rfl fun l r hl => ?_)
      exact halone l r (hl.trans (List.suffix_append _ _))
    by_cases hne : mid = []
    · subst hne
      refine List.mem_cons_of_mem _ (ih [] hmid.symm fun l r hl => ?_)
      obtain rfl := List.suffix_nil.mp hl
      exact halone [] r List.nil_suffix
    · -- What is found overlaps the one that stands alone, so the two are the same.
      rcases List.append_eq_append_iff.mp hmid with ⟨more, rfl, rfl⟩ | ⟨more, rfl, rfl⟩
      · have hprefix := List.prefix_append more rest
        obtain ⟨rfl, rfl⟩ := halone before more (List.suffix_refl _) hprefix hs.holds
        simp
      · have hwhole := isIdentifier_overlap hs.holds hname hne
        rw [← List.append_nil (mid ++ more)] at hwhole
        obtain ⟨rfl, -⟩ := halone before [] (List.suffix_refl _) List.nil_prefix hwhole
        obtain rfl := hs.eq_nil (List.prefix_append _ _) hname
        simp
  | @skip c rest later hnone _ ih =>
    cases before with
    | nil => exact absurd ⟨name, ne_nil_of_isIdentifier hname, hname, after, htext.symm⟩ hnone
    | cons _ before =>
      obtain ⟨rfl, rfl⟩ := List.cons.inj htext
      exact ih before rfl fun l r hl => halone l r (hl.trans (List.suffix_cons _ _))

-- ---------------------------------------------------------------------------
-- What is found
-- ---------------------------------------------------------------------------

/-- A text has one list of successive identifiers, which are those that are no part of a longer one.
The scan for calls finds those of them that stand before an opening bracket. So they are the names
that look like functions; all others, unless they are built in, are the variables. -/
theorem scans_see_the_same_identifiers (text : List Char) :
    ∃ found, (∀ found', Scanned (isIdentifier · = true) text found' ↔ found' = found) ∧
      (∀ called, Scanned IsCall text called ↔ called = beforeBracket found) ∧
      (∀ name after, (name, after) ∈ found ↔ StandsAlone text name after) ∧
      ∀ (hideBuiltins : Bool) (name : String),
        (name ∈ calledNames hideBuiltins text ↔
          (∃ after, (name.toList, '(' :: after) ∈ found) ∧
            ¬(hideBuiltins = true ∧ name ∈ Builtin.functionNames)) ∧
        (name ∈ (undeclared hideBuiltins text).functions ↔
          ∃ after, (name.toList, '(' :: after) ∈ found) ∧
        (name ∈ (undeclared hideBuiltins text).variableNames ↔
          (∃ after, (name.toList, after) ∈ found) ∧
            (¬ ∃ after, (name.toList, '(' :: after) ∈ found) ∧ name ∉ Builtin.functionNames ∧
            ¬(hideBuiltins = true ∧ name ∈ Builtin.constantNames)) := by
  obtain ⟨found, hfound, hidentifiers⟩ := scanned_identifiers text
  obtain ⟨called, hcalled, hcalls⟩ := scanned_calls text
  have hbefore := scanned_beforeBracket hfound
  obtain rfl := hcalled.unique hbefore
  have hcall : ∀ name, name ∈ calls text ↔ ∃ after, (name.toList, '(' :: after) ∈ found := by
    intro name
    rw [hcalls, mem_beforeBracket]
  have hidentifier : ∀ name, name ∈ identifiers text ↔ ∃ after, (name.toList, after) ∈ found := by
    intro name
    rw [hidentifiers, List.mem_map]
    constructor
    · rintro ⟨⟨name, after⟩, hmem, rfl⟩
      exact ⟨after, by simpa using hmem⟩
    · rintro ⟨after, hmem⟩
      exact ⟨_, hmem, String.ofList_toList⟩
  refine ⟨found, fun found' => ⟨fun h => h.unique hfound, fun h => h ▸ hfound⟩,
    fun called => ⟨fun h => h.unique hbefore, fun h => h ▸ hbefore⟩,
    fun name after => ⟨standsAlone_of_mem hfound, mem_of_standsAlone hfound⟩,
    fun hideBuiltins name => ⟨?_, ?_, ?_⟩⟩
  · simp [calledNames, hcall, imp_iff_not_or]
  · rw [mem_functions, hcall]
  · rw [mem_variableNames, mem_functions, hcall, hidentifier]
    tauto

end Name

end Formula
