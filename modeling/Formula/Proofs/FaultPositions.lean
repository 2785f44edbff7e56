import Formula.Proofs.Chains
import Formula.Proofs.Faults
import Formula.Proofs.Partition

/-!
# Where the fault of a side stands

A text with relations is read side by side, and the fault of a side counts its positions from the
beginning of that side. The sides before it are balanced, so the whole text has the same fault, but
further on by all that stands before the side. The positions are those of the text only when the
first side is at fault.
-/

namespace Formula

namespace Bracket

variable {fault : Fault} {opened : List (Bracket × Nat)} {text side before : List Char}

-- ---------------------------------------------------------------------------
-- Moving a fault
-- ---------------------------------------------------------------------------

def Fault.shift (n : Nat) : Fault → Fault
  | .unexpectedCloser b position => .unexpectedCloser b (n + position)
  | .unclosed b start length => .unclosed b (n + start) (n + length)

/-- Whether the positions of a fault are those of its brackets in a text. -/
def Fault.StandsIn (text : List Char) : Fault → Prop
  | .unexpectedCloser b position => text[position]? = some b.closer
  | .unclosed b start length => text[start]? = some b.opener ∧ length = text.length

theorem Fault.shift_eq_self : fault.shift n = fault ↔ n = 0 := by
  cases fault <;> simp [shift]

theorem Fails.shift (h : Fails m opened text fault) (n : Nat) :
    Fails (n + m) (opened.map fun top => (top.1, n + top.2)) text (fault.shift n) := by
  induction h with
  | stray => exact .stray
  | unmatched hb => exact .unmatched hb
  | unclosed => exact .unclosed
  | plain hc _ ih => exact .plain hc ih
  | opens _ ih => exact .opens ih
  | closes _ ih => exact .closes ih

theorem Fails.append (h : Fails n opened text (.unexpectedCloser b position))
    (after : List Char) : Fails n opened (text ++ after) (.unexpectedCloser b position) := by
  generalize hfault : Fault.unexpectedCloser b position = fault at h
  induction h with
  | stray => cases hfault; exact .stray
  | unmatched hb => cases hfault; exact .unmatched hb
  | unclosed => cases hfault
  | plain hc _ ih => exact .plain hc (ih hfault)
  | opens _ ih => exact .opens (ih hfault)
  | closes _ ih => exact .closes (ih hfault)

theorem ends_of_segments (h : segments text = .error fault) : fault.Ends text :=
  (fails_of_segmentsFrom h).ends (.nil .nil) rfl

theorem Opened.height_eq (h : Opened opened text) : height text = opened.length := by
  induction h with
  | nil h => exact h.height_eq_zero
  | cons _ hi ih =>
    rw [height_append, height_cons, ih, hi.height_eq_zero, mark_opener]
    rfl

theorem height_ne_zero_of_unclosed (h : segments text = .error (.unclosed b start length)) :
    height text ≠ 0 := by
  cases ends_of_segments h with
  | unclosed hopened =>
    rw [hopened.height_eq, List.length_cons]
    omega

theorem Fault.standsIn_of_segments (h : segments text = .error fault) : fault.StandsIn text := by
  cases ends_of_segments h with
  | unexpectedCloser => simp [StandsIn]
  | unclosed hopened =>
    refine ⟨?_, rfl⟩
    cases hopened with
    | cons => simp

/-- A fault is one of every text that puts a balanced text before it, but as many characters
further on. Where brackets were left open nothing may follow. -/
theorem segments_shift (hbefore : Balanced true before) (h : segments side = .error fault)
    (hafter : height side = 0 ∨ after = []) :
    segments (before ++ (side ++ after)) = .error (fault.shift before.length) := by
  have hside := (fails_of_segmentsFrom h).shift before.length
  have hfails : Fails before.length [] (side ++ after) (fault.shift before.length) := by
    cases fault with
    | unexpectedCloser => exact hside.append after
    | unclosed =>
      rw [hafter.resolve_left (height_ne_zero_of_unclosed h), List.append_nil]
      exact hside
  rw [← Nat.zero_add before.length] at hfails
  have hwhole := (hfails.balanced hbefore).segmentsFrom_eq []
  rwa [Nat.zero_add] at hwhole

end Bracket

-- ---------------------------------------------------------------------------
-- The sides of a text
-- ---------------------------------------------------------------------------

namespace Chain

variable {held : List Char} {depth : Int}

def sides (c : Chain) : List (List Char) := c.first :: c.links.map (·.2)

theorem dropLast_sides_link (side : List Char) (r : Relation) (later : Chain) :
    (link side r later).sides.dropLast = side :: later.sides.dropLast := rfl

/-- A text is cut where its height is zero, so all sides but the last one have none. -/
theorem height_of_mem_cutFrom (hheld : Bracket.height held.reverse = depth) (text : List Char) :
    ∀ side ∈ (cutFrom depth held text).sides.dropLast, Bracket.height side = 0 := by
  have hnil : Bracket.height [].reverse = 0 := rfl
  fun_induction cutFrom depth held text with
  | case1 =>
    intro side hside
    cases hside
  | case2 | case3 | case4 | case5 | case6 =>
    rename_i ih
    rw [dropLast_sides_link]
    exact List.forall_mem_cons.mpr ⟨hheld, ih hnil⟩
  | case7 | case8 =>
    rename_i ih
    exact ih (by rw [Bracket.height_reverse_cons, hheld])

theorem height_eq_zero_or_last (text : List Char) (front : List (List Char)) (side : List Char)
    (back : List (List Char)) (h : (ofText text).sides = front ++ side :: back) :
    Bracket.height side = 0 ∨ back = [] := by
  have hnil : Bracket.height [].reverse = 0 := rfl
  have hheight : ∀ side ∈ (ofText text).sides.dropLast, Bracket.height side = 0 :=
    height_of_mem_cutFrom hnil text
  cases back with
  | nil => exact .inr rfl
  | cons next back =>
    rw [h, List.dropLast_append_of_ne_nil (List.cons_ne_nil _ _),
      List.dropLast_cons_cons] at hheight
    exact .inl (hheight side (by simp))

theorem balanced_symbol (r : Relation) : Bracket.Balanced true r.symbol.toList := by
  refine .of_plain ?_
  cases r <;> simp [Relation.symbol, Bracket.mark]

theorem balanced_source {c : Chain} (hfirst : Bracket.Balanced true c.first)
    (hlinks : ∀ link ∈ c.links, Bracket.Balanced true link.2) :
    Bracket.Balanced true c.source := by
  obtain ⟨first, links⟩ := c
  refine hfirst.append ?_
  replace hlinks : ∀ link ∈ links, Bracket.Balanced true link.2 := hlinks
  clear hfirst
  induction links with
  | nil => exact .nil
  | cons link links ih =>
    obtain ⟨hlink, hlinks⟩ := List.forall_mem_cons.mp hlinks
    exact ((balanced_symbol link.1).append hlink).append (ih hlinks)

theorem ReadsAs.balanced {c : Chain} {p : Parser} (h : c.ReadsAs (p.readWithin l) e) :
    Bracket.Balanced true c.source := by
  obtain ⟨first, rights, hfirst, hrights, -⟩ := h
  have hread {side : List Char} {e : Expr} (h : p.readWithin l side = .ok e) :
      Bracket.Balanced true side :=
    Parser.balanced_of_readAt h
  refine balanced_source (hread hfirst) fun link hlink => ?_
  obtain ⟨right, -, -, hright⟩ := exists_of_mem_left hrights hlink
  exact hread hright

theorem source_split (first : List Char) (before after : List (Relation × List Char))
    (r : Relation) (side : List Char) :
    (⟨first, before ++ (r, side) :: after⟩ : Chain).source =
      ((⟨first, before⟩ : Chain).source ++ r.symbol.toList) ++
        (side ++ after.flatMap fun link => link.1.symbol.toList ++ link.2) := by
  simp [source]

theorem flatMap_links (links : List (Relation × List Char)) :
    links.flatMap (fun link => link.1.symbol.toList ++ link.2) = [] ∨
      ∃ (r : Relation) (later : List Char),
        links.flatMap (fun link => link.1.symbol.toList ++ link.2) = r.symbol.toList ++ later := by
  cases links with
  | nil => exact .inl rfl
  | cons link links => exact .inr ⟨link.1, _, by rw [List.flatMap_cons, List.append_assoc]⟩

end Chain

-- ---------------------------------------------------------------------------
-- The side at fault
-- ---------------------------------------------------------------------------

namespace Parser

variable {f : Bracket.Fault}

theorem readChainWithin_eq_fault {p : Parser} {c : Chain} :
    p.readChainWithin l c = .error (.bracket f) ↔ Chain.unpaired? c.first c.links = none ∧
      (p.readWithin l c.first = .error (.bracket f) ∨
        ∃ before r side after e, c.links = before ++ (r, side) :: after ∧
          (⟨c.first, before⟩ : Chain).ReadsAs (p.readWithin l) e ∧
          p.readWithin l side = .error (.bracket f)) := by
  unfold readChainWithin Chain.ReadsAs
  cases Chain.unpaired? c.first c.links with
  | some r => simp [throw, throwThe, MonadExceptOf.throw]
  | none =>
    simp only [bind_eq_error, foldlM_eq_error, foldlM_eq_ok, true_and]
    refine or_congr_right ⟨?_, ?_⟩
    · rintro ⟨first, hfirst, before, ⟨r, side⟩, after, left, hlinks, ⟨rights, hrights, rfl⟩,
        h | ⟨_, -, h⟩⟩
      · exact ⟨before, r, side, after, _, hlinks, ⟨first, rights, hfirst, hrights, rfl⟩, h⟩
      · cases h
    · rintro ⟨before, r, side, after, e, hlinks, ⟨first, rights, hfirst, hrights, rfl⟩, h⟩
      exact ⟨first, hfirst, before, (r, side), after, _, hlinks, ⟨rights, hrights, rfl⟩, .inl h⟩

theorem parseRelations_eq_fault : parseRelations o text = .error (.bracket f) ↔
    checkDeclarations o.variableNames o.functions.signatures = .ok () ∧
      (Parser.mk o o.vocabulary).readRelations text.toList = .error (.bracket f) := by
  cases hcheck : checkDeclarations o.variableNames o.functions.signatures with
  | ok u =>
    rw [parseRelations, parseRelationsWithin, ofOptions, hcheck]
    exact ⟨fun h => ⟨rfl, h⟩, fun h => h.2⟩
  | error err =>
    rw [parseRelations, parseRelationsWithin, ofOptions, hcheck]
    constructor
    · intro h
      cases h
      cases (ofDeclarations_of_checkDeclarations hcheck).isOfBrackets_eq
    · rintro ⟨hok, -⟩
      cases hok

theorem parse_eq_fault (hcheck : checkDeclarations o.variableNames o.functions.signatures = .ok ())
    (text : String) :
    parse o text = .error (.bracket f) ↔ Bracket.segments text.toList = .error f := by
  rw [parse, parseWithin_of_check hcheck]
  exact read_eq_fault_iff _ _ f

end Parser

theorem exists_side_of_fault {text : String}
    (hcheck : checkDeclarations o.variableNames o.functions.signatures = .ok ())
    (h : (Parser.mk o o.vocabulary).readRelations text.toList = .error (.bracket f)) :
    ∃ before side after : List Char, text.toList = before ++ (side ++ after) ∧
      (before = [] ∨ ∃ (earlier : List Char) (r : Relation) (e : Expr),
        before = earlier ++ r.symbol.toList ∧ parseRelations o (.ofList earlier) = .ok e) ∧
      (after = [] ∨ ∃ (r : Relation) (later : List Char), after = r.symbol.toList ++ later) ∧
      Bracket.segments side = .error f ∧
      Bracket.segments text.toList = .error (f.shift before.length) := by
  have hsource := Chain.source_ofText text.toList
  have hlast := Chain.height_eq_zero_or_last text.toList
  rw [Parser.readRelations, Parser.readChainWithin_eq_fault] at h
  generalize Chain.ofText text.toList = c at h hsource hlast
  obtain ⟨first, links⟩ := c
  obtain ⟨-, hfirst | ⟨before, r, side, after, e, rfl, hreads, hside⟩⟩ := h
  · have hfirst := (Parser.read_eq_fault_iff _ _ f).mp hfirst
    have hafter := hlast [] first (links.map (·.2)) rfl
    refine ⟨[], first, _, hsource.symm, .inl rfl, Chain.flatMap_links _, hfirst, ?_⟩
    rw [← hsource]
    refine Bracket.segments_shift .nil hfirst (hafter.imp_right fun hnone => ?_)
    rw [List.map_eq_nil_iff.mp hnone, List.flatMap_nil]
  · have hside := (Parser.read_eq_fault_iff _ _ f).mp hside
    have hafter := hlast (first :: before.map (·.2)) side (after.map (·.2)) (by simp [Chain.sides])
    have hbefore := hreads.balanced.append (Chain.balanced_symbol r)
    rw [Chain.source_split] at hsource
    rw [← Parser.parseWithin_eq_readWithin hcheck] at hreads
    refine ⟨_, side, _, hsource.symm, .inr ⟨_, r, e, rfl, parseRelations_source hreads⟩,
      Chain.flatMap_links _, hside, ?_⟩
    rw [← hsource]
    refine Bracket.segments_shift hbefore hside (hafter.imp_right fun hnone => ?_)
    rw [List.map_eq_nil_iff.mp hnone, List.flatMap_nil]

/-- When a text with relations is refused for its brackets, one side is, and all that stands before
it can be read. The positions are counted from the beginning of that side: they are right for the
first side, and for any other one the whole text has its fault further on. -/
theorem relation_faults_count_from_side (o : Options) (text : String) (f : Bracket.Fault)
    (h : parseRelations o text = .error (.bracket f)) :
    ∃ before side after : List Char, text.toList = before ++ (side ++ after) ∧
      (before = [] ∨ ∃ (earlier : List Char) (r : Relation) (e : Expr),
        before = earlier ++ r.symbol.toList ∧ parseRelations o (.ofList earlier) = .ok e) ∧
      (after = [] ∨ ∃ (r : Relation) (later : List Char), after = r.symbol.toList ++ later) ∧
      parse o (.ofList side) = .error (.bracket f) ∧
      parse o text = .error (.bracket (f.shift before.length)) ∧
      (f.shift before.length).StandsIn text.toList ∧
      (before = [] → f.StandsIn text.toList) ∧
      (before ≠ [] → parse o text ≠ .error (.bracket f)) := by
  obtain ⟨hcheck, hread⟩ := Parser.parseRelations_eq_fault.mp h
  obtain ⟨before, side, after, htext, hbefore, hafter, hside, hwhole⟩ :=
    exists_side_of_fault hcheck hread
  refine ⟨before, side, after, htext, hbefore, hafter, ?_, ?_, ?_, ?_, ?_⟩
  · rwa [Parser.parse_eq_fault hcheck, String.toList_ofList]
  · rwa [Parser.parse_eq_fault hcheck]
  · exact Bracket.Fault.standsIn_of_segments hwhole
  · rintro rfl
    rw [Bracket.Fault.shift_eq_self.mpr List.length_nil] at hwhole
    exact Bracket.Fault.standsIn_of_segments hwhole
  · intro hne heq
    rw [Parser.parse_eq_fault hcheck, hwhole, Except.error.injEq, Bracket.Fault.shift_eq_self,
      List.length_eq_zero_iff] at heq
    exact hne heq

/-- The closer of `x=)` is reported as the first character, which is the `x`: it is the first one of
the second side. -/
theorem relation_faults_count_from_side_second :
    parseRelations {} "x=)" = .error (.bracket (.unexpectedCloser .round 0)) ∧
      ¬(Bracket.Fault.unexpectedCloser .round 0).StandsIn "x=)".toList ∧
      ∃ before side after : List Char, "x=)".toList = before ++ (side ++ after) ∧
        before.length = 2 ∧
        parse {} (.ofList side) = .error (.bracket (.unexpectedCloser .round 0)) ∧
        parse {} "x=)" = .error (.bracket (.unexpectedCloser .round 2)) := by
  have hx : (Parser.mk {} (Options.vocabulary {})).read ['x'] = .ok (.named "x") :=
    (parseWithin_eq_ok.mp parse_x).2
  have hcloser : (Parser.mk {} (Options.vocabulary {})).read [')'] =
      .error (.bracket (.unexpectedCloser .round 0)) := (Parser.read_eq_fault_iff _ _ _).mpr rfl
  have hrefused : parseRelations {} "x=)" = .error (.bracket (.unexpectedCloser .round 0)) :=
    Parser.parseRelations_eq_fault.mpr ⟨rfl, Parser.readChainWithin_eq_fault.mpr ⟨rfl, .inr
      ⟨[], .equals, [')'], [], _, rfl, ⟨_, [], hx, .nil, rfl⟩, hcloser⟩⟩⟩
  have hwhole : parse {} "x=)" = .error (.bracket (.unexpectedCloser .round 2)) :=
    (Parser.parse_eq_fault rfl _).mpr rfl
  obtain ⟨before, side, after, htext, -, -, hside, hshift, -⟩ :=
    relation_faults_count_from_side {} "x=)" _ hrefused
  refine ⟨hrefused, by simp [Bracket.Fault.StandsIn, Bracket.closer], before, side, after, htext,
    ?_, hside, hwhole⟩
  simp only [hwhole, Bracket.Fault.shift, Except.error.injEq, ParseError.bracket.injEq,
    Bracket.Fault.unexpectedCloser.injEq, true_and] at hshift
  omega

end Formula
