import Formula.Proofs.Readable

/-!
# Formulas with relations between them

A text that is cut at its relations falls apart into the sides that it was put together
from, if each side is a formula: no formula has a relation in it or leaves a bracket open.
So a text with relations has a tree just when it is such a chain, and then it is one chain
only.
-/

namespace Formula

variable {o : Options}

namespace Chain

-- ---------------------------------------------------------------------------
-- Cutting and joining
-- ---------------------------------------------------------------------------

theorem source_link (side : List Char) (r : Relation) (later : Chain) :
    (link side r later).source = side ++ (r.symbol.toList ++ later.source) := by
  simp [link, source]

theorem source_cutFrom (depth : Int) (held text : List Char) :
    (cutFrom depth held text).source = held.reverse ++ text := by
  fun_induction cutFrom depth held text with
  | case1 => simp [source]
  | case2 _ _ ih => rw [source_link, ih]; rfl
  | case3 _ _ ih => rw [source_link, ih]; rfl
  | case4 _ _ _ ih => rw [source_link, ih]; rfl
  | case5 _ _ _ ih => rw [source_link, ih]; rfl
  | case6 _ _ ih => rw [source_link, ih]; rfl
  | case7 _ _ _ _ _ _ _ _ ih => rw [ih]; simp
  | case8 _ _ _ _ _ ih => rw [ih]; simp

theorem source_ofText (text : List Char) : (ofText text).source = text := source_cutFrom 0 [] text

/-- What the cutting of a text leaves in one piece. -/
structure IsSide (side : List Char) : Prop where
  no_relation : ∀ c ∈ side, c ∉ ['=', '<', '>']
  height_eq_zero : Bracket.height side = 0
  not_blank : Text.isBlankText side = false

theorem cutFrom_cons (h : c ∉ ['=', '<', '>']) (depth : Int) (held rest : List Char) :
    cutFrom depth held (c :: rest) = cutFrom (depth + (Bracket.mark c).rise) (c :: held) rest := by
  simp only [List.mem_cons, List.not_mem_nil, or_false, not_or] at h
  rw [cutFrom, ite_self] <;> simp_all

theorem cutFrom_append (h : ∀ c ∈ text, c ∉ ['=', '<', '>']) (depth : Int)
    (held rest : List Char) : cutFrom depth held (text ++ rest) =
      cutFrom (depth + Bracket.height text) (text.reverse ++ held) rest := by
  induction text generalizing depth held with
  | nil => simp [Bracket.height]
  | cons c text ih =>
    rw [List.forall_mem_cons] at h
    rw [List.cons_append, cutFrom_cons h.1, ih h.2, Bracket.height_cons, add_assoc]
    simp

theorem IsSide.cutFrom_append (h : IsSide side) (rest : List Char) :
    cutFrom 0 [] (side ++ rest) = cutFrom 0 side.reverse rest := by
  rw [Chain.cutFrom_append h.no_relation, h.height_eq_zero, List.append_nil]
  rfl

theorem IsSide.head?_ne (h : IsSide side) (rest : List Char) : (side ++ rest).head? ≠ some '=' := by
  cases side with
  | nil => cases h.not_blank
  | cons c side =>
    have hc := h.no_relation c List.mem_cons_self
    simp_all

theorem cutFrom_symbol (r : Relation) (h : rest.head? ≠ some '=') (held : List Char) :
    cutFrom 0 held (r.symbol.toList ++ rest) = link held.reverse r (cutFrom 0 [] rest) := by
  cases r with
  | less =>
    show cutFrom 0 held ('<' :: rest) = _
    rw [cutFrom, if_pos rfl]
    rintro rest rfl
    exact h rfl
  | greater =>
    show cutFrom 0 held ('>' :: rest) = _
    rw [cutFrom, if_pos rfl]
    rintro rest rfl
    exact h rfl
  | _ => rfl

theorem ofText_source {c : Chain} (hfirst : IsSide c.first)
    (hlinks : ∀ link ∈ c.links, IsSide link.2) : ofText c.source = c := by
  obtain ⟨first, links⟩ := c
  induction links generalizing first with
  | nil =>
    rw [ofText, source, hfirst.cutFrom_append]
    simp [cutFrom]
  | cons link links ih =>
    obtain ⟨r, side⟩ := link
    rw [List.forall_mem_cons] at hlinks
    have hsource : (⟨first, (r, side) :: links⟩ : Chain).source =
        first ++ (r.symbol.toList ++ (⟨side, links⟩ : Chain).source) := by
      simp [source]
    have hhead : (⟨side, links⟩ : Chain).source.head? ≠ some '=' := hlinks.1.head?_ne _
    have ih := ih side hlinks.1 hlinks.2
    rw [ofText] at ih
    rw [ofText, hsource, hfirst.cutFrom_append, cutFrom_symbol r hhead, ih, List.reverse_reverse]
    rfl

theorem unpaired?_eq_none {links : List (Relation × List Char)}
    (hleft : Text.isBlankText left = false)
    (hlinks : ∀ link ∈ links, Text.isBlankText link.2 = false) : unpaired? left links = none := by
  induction links generalizing left with
  | nil => rfl
  | cons link links ih =>
    rw [List.forall_mem_cons] at hlinks
    rw [unpaired?, hleft, hlinks.1, Bool.and_false, Bool.or_false]
    exact ih hlinks.1 hlinks.2

-- ---------------------------------------------------------------------------
-- Reading the sides
-- ---------------------------------------------------------------------------

/-- Every side is read as a tree, and these are compared from left to right: each comparison
is the left side of the next. -/
def ReadsAs (read : List Char → Except ParseError Expr) (c : Chain) (e : Expr) : Prop :=
  ∃ (first : Expr) (rights : List (Relation × Expr)), read c.first = .ok first ∧
    List.Forall₂ (fun link right => link.1 = right.1 ∧ read link.2 = .ok right.2) c.links rights ∧
    e = rights.foldl (fun left right => .compare right.1 left right.2) first

theorem isSide_of_parseWithin (h : parseWithin l o side = .ok e) : IsSide side := by
  obtain ⟨hcheck, hread⟩ := parseWithin_eq_ok.mp h
  have hwhole := whole_of_readAt (checkDeclarations_eq_ok.mp hcheck) hread
  have hrelation : ∀ c ∈ ['=', '<', '>'], c ∉ side := fun c => not_mem_of_parseWithin h
  exact ⟨fun c hc hmem => hrelation c hmem hc, hwhole.1.height_eq_zero, hwhole.2⟩

namespace ReadsAs

variable {c : Chain}

theorem isSide_first (h : c.ReadsAs (parseWithin l o) e) : IsSide c.first := by
  obtain ⟨first, _, hfirst, -⟩ := h
  exact isSide_of_parseWithin hfirst

theorem isSide_link (h : c.ReadsAs (parseWithin l o) e) : ∀ link ∈ c.links, IsSide link.2 := by
  obtain ⟨_, rights, -, hrights, -⟩ := h
  intro link hlink
  obtain ⟨right, -, -, hright⟩ := exists_of_mem_left hrights hlink
  exact isSide_of_parseWithin hright

theorem ofText_source (h : c.ReadsAs (parseWithin l o) e) : ofText c.source = c :=
  Chain.ofText_source h.isSide_first h.isSide_link

theorem unpaired?_eq_none (h : c.ReadsAs (parseWithin l o) e) :
    unpaired? c.first c.links = none :=
  Chain.unpaired?_eq_none h.isSide_first.not_blank
    fun link hlink => (h.isSide_link link hlink).not_blank

end ReadsAs

end Chain

namespace Parser

theorem foldlM_eq_ok {read : List Char → Except ParseError Expr} {first e : Expr}
    {links : List (Relation × List Char)} :
    links.foldlM (fun left link => do
      let right ← read link.2
      return Expr.compare link.1 left right) first = .ok e ↔
    ∃ rights : List (Relation × Expr),
      List.Forall₂ (fun link right => link.1 = right.1 ∧ read link.2 = .ok right.2) links rights ∧
      e = rights.foldl (fun left right => .compare right.1 left right.2) first := by
  induction links generalizing first with
  | nil =>
    rw [List.foldlM_nil, pure_eq_ok]
    simp [eq_comm]
  | cons link links ih =>
    simp only [List.foldlM_cons, bind_eq_ok, pure_eq_ok, List.forall₂_cons_left_iff]
    constructor
    · rintro ⟨left, ⟨right, hright, rfl⟩, h⟩
      obtain ⟨rights, hrights, rfl⟩ := ih.mp h
      exact ⟨(link.1, right) :: rights, ⟨_, _, ⟨rfl, hright⟩, hrights, rfl⟩, rfl⟩
    · rintro ⟨_, ⟨⟨r, right⟩, rights, ⟨hr, hright⟩, hrights, rfl⟩, rfl⟩
      exact ⟨_, ⟨right, hright, rfl⟩, ih.mpr ⟨rights, hrights, by rw [hr]; rfl⟩⟩

theorem readChainWithin_eq_ok {p : Parser} {c : Chain} : p.readChainWithin l c = .ok e ↔
    Chain.unpaired? c.first c.links = none ∧ c.ReadsAs (p.readWithin l) e := by
  unfold readChainWithin Chain.ReadsAs
  cases Chain.unpaired? c.first c.links with
  | some r => simp [throw, throwThe, MonadExceptOf.throw]
  | none => simp only [bind_eq_ok, foldlM_eq_ok, exists_and_left, true_and]

theorem parseRelationsWithin_eq_ok : parseRelationsWithin l o text = .ok e ↔
    checkDeclarations o.variableNames o.functions.signatures = .ok () ∧
      (Parser.mk o o.vocabulary).readChainWithin l (.ofText text) = .ok e :=
  ofOptions_bind_eq_ok

theorem parseWithin_eq_readWithin
    (hcheck : checkDeclarations o.variableNames o.functions.signatures = .ok ()) :
    parseWithin l o = (Parser.mk o o.vocabulary).readWithin l :=
  funext fun _ => parseWithin_of_check hcheck

end Parser

/-- A text with relations has a tree just when it is made of formulas with relations between
them. Then it is so in one way only, and the tree compares the formulas from left to right.
Any other text is refused. So it is within whatever limits the formulas are read. -/
theorem relations_join_formulas (o : Options) (l : Parser.Limits) (text : List Char) :
    (∃ l : Parser.Limits, l.Govern) ∧
    (∀ e, parseRelationsWithin l o text = .ok e ↔
      ∃ c : Chain, c.source = text ∧ c.ReadsAs (parseWithin l o) e) ∧
    (∀ (c c' : Chain) (e e' : Expr), c.source = text → c'.source = text →
      c.ReadsAs (parseWithin l o) e → c'.ReadsAs (parseWithin l o) e' → c = c') ∧
    ((∀ (c : Chain) (e : Expr), c.source = text → ¬c.ReadsAs (parseWithin l o) e) →
      ∃ err, parseRelationsWithin l o text = .error err) := by
  have hiff : ∀ e, parseRelationsWithin l o text = .ok e ↔
      ∃ c : Chain, c.source = text ∧ c.ReadsAs (parseWithin l o) e := by
    intro e
    rw [Parser.parseRelationsWithin_eq_ok, Parser.readChainWithin_eq_ok]
    constructor
    · rintro ⟨hcheck, -, h⟩
      rw [← Parser.parseWithin_eq_readWithin hcheck] at h
      exact ⟨_, Chain.source_ofText text, h⟩
    · rintro ⟨c, hsource, h⟩
      obtain ⟨first, -, hfirst, -⟩ := id h
      have hcheck := (parseWithin_eq_ok.mp hfirst).1
      rw [← hsource, h.ofText_source, ← Parser.parseWithin_eq_readWithin hcheck]
      exact ⟨hcheck, h.unpaired?_eq_none, h⟩
  refine ⟨Parser.exists_govern, hiff, fun c c' e e' hc hc' h h' => ?_, fun hnone => ?_⟩
  · rw [← h.ofText_source, hc, ← hc', h'.ofText_source]
  · cases h : parseRelationsWithin l o text with
    | error err => exact ⟨err, rfl⟩
    | ok e =>
      obtain ⟨c, hsource, hread⟩ := (hiff e).mp h
      exact absurd hread (hnone c e hsource)

/-- A chain of three sides is the only one for its text. A relation inside brackets makes no
chain. -/
theorem relations_join_formulas_in_order :
    let c : Chain := ⟨"x ".toList, [(.lessEqual, " [x]".toList), (.equals, "x".toList)]⟩
    (∃ a b d, parse {} "x " = .ok a ∧ parse {} " [x]" = .ok b ∧ parse {} "x" = .ok d ∧
      parseRelations {} "x <= [x]=x" = .ok (.compare .equals (.compare .lessEqual a b) d)) ∧
    (∀ (c' : Chain) (e : Expr), c'.source = "x <= [x]=x".toList →
      c'.ReadsAs (parseWithin Parser.limits {}) e → c' = c) ∧
    ∃ err, parseRelations {} "x <= [x=x]" = .error err := by
  intro c
  have hok : ∀ s ∈ ["x ", " [x]", "x"], ∃ e, parse {} s = .ok e := by
    intro s hs
    refine exists_of_isOk ?_
    revert s
    decide +kernel
  obtain ⟨a, ha⟩ := hok "x " (by simp)
  obtain ⟨b, hb⟩ := hok " [x]" (by simp)
  obtain ⟨d, hd⟩ := hok "x" (by simp)
  have hsource : c.source = "x <= [x]=x".toList := by decide
  have hreads : c.ReadsAs (parseWithin Parser.limits {})
      (.compare .equals (.compare .lessEqual a b) d) :=
    ⟨a, [(.lessEqual, b), (.equals, d)], ha, .cons ⟨rfl, hb⟩ (.cons ⟨rfl, hd⟩ .nil), rfl⟩
  obtain ⟨-, hiff, hunique, -⟩ := relations_join_formulas {} Parser.limits "x <= [x]=x".toList
  obtain ⟨-, hinside, -, hrefused⟩ := relations_join_formulas {} Parser.limits "x <= [x=x]".toList
  refine ⟨⟨a, b, d, ha, hb, hd, (hiff _).mpr ⟨c, hsource, hreads⟩⟩,
    fun c' e hc' h => hunique c' c e _ hc' hsource h hreads, hrefused fun c' e hc' h => ?_⟩
  have hfails : (parseRelations {} "x <= [x=x]").isOk = false := by decide +kernel
  rw [show parseRelations {} "x <= [x=x]" = .ok e from (hinside e).mpr ⟨c', hc', h⟩] at hfails
  cases hfails

end Formula
