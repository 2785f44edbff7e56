import Formula.Expr.Stored
import Formula.Proofs.Everywhere
import Formula.Proofs.FieldOrder

/-!
# Trees and the data they are stored as

Which data stand for which tree, apart from the order in which they are read: a mapping stands for
a tree of the kind that it names when it has the fields of that kind, whatever else it holds.
-/

namespace Formula

open Datum (field? Reordered ReorderedItems)

-- ---------------------------------------------------------------------------
-- Reading a mapping
-- ---------------------------------------------------------------------------

theorem required_eq_ok : required fs name = .ok d ↔ field? fs name = some d := by
  unfold required
  split <;> simp_all

theorem map_eq_ok {f : α → β} {x : Except ε α} : f <$> x = .ok b ↔ ∃ a, x = .ok a ∧ f a = b := by
  cases x with
  | error e => exact ⟨nofun, fun ⟨_, h, _⟩ => nomatch h⟩
  | ok a => exact ⟨fun h => ⟨a, rfl, by cases h; rfl⟩, fun ⟨_, ha, h⟩ => by cases ha; cases h; rfl⟩

theorem isPartialInv_find? {α : Type} {symbol : α → String} {all : List α}
    (h : ∀ op, all.find? (symbol · == symbol op) = some op) :
    Function.IsPartialInv symbol fun s => all.find? (symbol · == s) := by
  intro op s
  constructor
  · intro hs
    simpa using List.find?_some hs
  · rintro rfl
    exact h op

theorem UnaryOp.isPartialInv_symbol : Function.IsPartialInv symbol ofSymbol? :=
  isPartialInv_find? ofSymbol?_symbol

theorem BinaryOp.isPartialInv_symbol : Function.IsPartialInv symbol ofSymbol? :=
  isPartialInv_find? ofSymbol?_symbol

theorem Relation.isPartialInv_symbol : Function.IsPartialInv symbol ofSymbol? :=
  isPartialInv_find? ofSymbol?_symbol

namespace Expr

theorem readSymbol_eq_ok {α : Type} {ofSymbol? : String → Option α} {refuse : Datum → StoredError}
    {a : α} : readSymbol ofSymbol? refuse d = .ok a ↔ ∃ s, d = .text s ∧ ofSymbol? s = some a := by
  cases d with
  | text s => cases hs : ofSymbol? s <;> simp [readSymbol, hs]
  | _ => simp [readSymbol]

theorem ofField?_eq_ok :
    ofField? fs name = .ok e ↔ ∃ d, field? fs name = some d ∧ ofDatum? d = .ok e := by
  unfold ofField?
  split <;> simp_all

end Expr

theorem Signature.ofDatum?_eq_ok {s : Signature} :
    ofDatum? d = .ok s ↔ ∃ fs ss, d = .mapping fs ss ∧ field? fs "name" = some s.name ∧
      field? fs "min_args" = some s.least ∧ field? fs "max_args" = some s.most := by
  cases d with
  | mapping fs ss =>
    simp only [ofDatum?, bind_eq_ok, required_eq_ok, pure_eq_ok, Datum.mapping.injEq, and_assoc,
      exists_eq_left', exists_and_left]
    constructor
    · rintro ⟨name, hname, least, hleast, most, hmost, rfl⟩
      exact ⟨hname, hleast, hmost⟩
    · rintro ⟨hname, hleast, hmost⟩
      exact ⟨_, hname, _, hleast, _, hmost, rfl⟩
  | _ => simp [ofDatum?]

theorem Signature.call_eq_ok {s : Signature} :
    s.call es = .ok e ↔ s.accepts es.length = some true ∧ e = .call ⟨s, none⟩ es := by
  unfold call
  split <;> rename_i h <;> simp [h, eq_comm]

-- ---------------------------------------------------------------------------
-- Data that stand for a tree
-- ---------------------------------------------------------------------------

mutual
inductive Datum.StandsFor : Datum → Expr → Prop
  | missing : StandsFor .null .missing
  | const : field? fs "type" = some (.text "const") → field? fs "value" = some v →
      StandsFor (.mapping fs ss) (.const v)
  | var : field? fs "type" = some (.text "var") → field? fs "name" = some name →
      StandsFor (.mapping fs ss) (.var name)
  | unary (op : UnaryOp) : field? fs "type" = some (.text "unary") →
      field? fs "operator" = some (.text op.symbol) → field? fs "operand" = some d →
      StandsFor d e → StandsFor (.mapping fs ss) (.unary op e)
  | binary (op : BinaryOp) : field? fs "type" = some (.text "binary") →
      field? fs "operator" = some (.text op.symbol) → field? fs "left" = some c →
      field? fs "right" = some d → StandsFor c l → StandsFor d r →
      StandsFor (.mapping fs ss) (.binary op l r)
  | compare (rel : Relation) : field? fs "type" = some (.text "compare") →
      field? fs "operator" = some (.text rel.symbol) → field? fs "left" = some c →
      field? fs "right" = some d → StandsFor c l → StandsFor d r →
      StandsFor (.mapping fs ss) (.compare rel l r)
  | call : field? fs "type" = some (.text "call") → field? fs "definition" = some c →
      Signature.ofDatum? c = .ok s → ArgumentsStandFor (field? fs "arguments") es →
      s.accepts es.length = some true → StandsFor (.mapping fs ss) (.call ⟨s, none⟩ es)
/-- The field of arguments, if it is there, stands for the trees. A mapping stands for those of its
keys, and no key but an absent one is a tree. -/
inductive Datum.ArgumentsStandFor : Option Datum → List Expr → Prop
  | none : ArgumentsStandFor none []
  | text : ArgumentsStandFor (some (.text "")) []
  | mapping : (∀ s ∈ ss, s.1 = .absent) →
      ArgumentsStandFor (some (.mapping [] ss)) (.replicate ss.length .missing)
  | list : AllStandFor ds es → ArgumentsStandFor (some (.list ds)) es
inductive Datum.AllStandFor : List Datum → List Expr → Prop
  | nil : AllStandFor [] []
  | cons : StandsFor d e → AllStandFor ds es → AllStandFor (d :: ds) (e :: es)
end

namespace Expr

theorem ofAtom?_eq_ok : ofAtom? d = .ok e ↔ d = .null ∧ e = .missing := by
  unfold ofAtom?
  split <;> simp_all [Datum.null, eq_comm]

theorem mapM_ofAtom?_eq_ok {ds : List Datum} :
    ds.mapM ofAtom? = .ok es ↔ (∀ d ∈ ds, d = .null) ∧ es = .replicate ds.length .missing := by
  simp only [mapM_eq_ok, ofAtom?_eq_ok]
  induction ds generalizing es with
  | nil => simp
  | cons d ds ih =>
    cases es <;> simp [ih, List.replicate_succ, and_assoc, and_left_comm]

theorem ofArguments?_eq_ok : ofArguments? fs = .ok es ↔
    field? fs "arguments" = none ∧ es = [] ∨
    field? fs "arguments" = some (.text "") ∧ es = [] ∨
    (∃ ss, field? fs "arguments" = some (.mapping [] ss) ∧ (∀ s ∈ ss, s.1 = .absent) ∧
      es = .replicate ss.length .missing) ∨
    ∃ ds, field? fs "arguments" = some (.list ds) ∧ ofDatumAll? ds = .ok es := by
  unfold ofArguments?
  split
  case h_1 h => simp [h, eq_comm]
  case h_2 h => simp [h]
  case h_3 a hlist h =>
    simp only [h, bind_eq_ok, mapM_ofAtom?_eq_ok]
    cases a with
    | scalar => simp [Datum.elements]
    | list ds => exact absurd rfl (hlist ds)
    | text s =>
      by_cases hs : s = ""
      · subst hs
        simp [Datum.elements]
      · have hne : s.toList ≠ [] := by simpa using hs
        obtain ⟨c, cs, hcs⟩ := List.exists_cons_of_ne_nil hne
        simp [Datum.elements, hcs, hs, Datum.null]
    | mapping gs ss =>
      cases gs with
      | cons g gs => simp [Datum.elements, Datum.null]
      | nil =>
        have hkeys : (∀ d ∈ ss.map (Datum.scalar ·.1), d = .null) ↔ ∀ s ∈ ss, s.1 = .absent := by
          simp only [List.forall_mem_map, Datum.null, Datum.scalar.injEq]
        simp only [Datum.elements, List.map_nil, List.nil_append, Except.ok.injEq, exists_eq_left',
          hkeys, List.length_map]
        simp

mutual
theorem ofDatum?_of_standsFor : (e : Expr) → {d : Datum} → d.StandsFor e → ofDatum? d = .ok e
  | .missing, _, .missing => by simp [ofDatum?, Datum.null]
  | .const v, _, .const ht hv => by simp [ofDatum?, ht, required_eq_ok.mpr hv]
  | .var name, _, .var ht hname => by simp [ofDatum?, ht, required_eq_ok.mpr hname]
  | .unary op e, _, .unary _ ht hop he hd => by
    have he := ofField?_eq_ok.mpr ⟨_, he, ofDatum?_of_standsFor e hd⟩
    simp [ofDatum?, ht, required_eq_ok.mpr hop, readSymbol, UnaryOp.ofSymbol?_symbol, he]
  | .binary op l r, _, .binary _ ht hop hl hr hc hd => by
    have hl := ofField?_eq_ok.mpr ⟨_, hl, ofDatum?_of_standsFor l hc⟩
    have hr := ofField?_eq_ok.mpr ⟨_, hr, ofDatum?_of_standsFor r hd⟩
    simp [ofDatum?, ht, required_eq_ok.mpr hop, readSymbol, BinaryOp.ofSymbol?_symbol, hl, hr]
  | .compare rel l r, _, .compare _ ht hop hl hr hc hd => by
    have hl := ofField?_eq_ok.mpr ⟨_, hl, ofDatum?_of_standsFor l hc⟩
    have hr := ofField?_eq_ok.mpr ⟨_, hr, ofDatum?_of_standsFor r hd⟩
    simp [ofDatum?, ht, required_eq_ok.mpr hop, readSymbol, Relation.ofSymbol?_symbol, hl, hr]
  | .call _ es, .mapping fs _, .call ht hdef hs hes haccepts => by
    have hread : ofArguments? fs = .ok es := by
      refine ofArguments?_eq_ok.mpr ?_
      generalize field? fs "arguments" = x at hes
      cases hes with
      | none => simp
      | text => simp
      | mapping h => simpa using h
      | list h => simp [ofDatumAll?_of_standFor es h]
    have hcall := Signature.call_eq_ok.mpr ⟨haccepts, rfl⟩
    simp [ofDatum?, ht, required_eq_ok.mpr hdef, hs, hread, hcall]
theorem ofDatumAll?_of_standFor : (es : List Expr) → {ds : List Datum} →
    Datum.AllStandFor ds es → ofDatumAll? ds = .ok es
  | [], _, .nil => by rw [ofDatumAll?]
  | e :: es, _, .cons hd hds => by
    simp [ofDatumAll?, ofDatum?_of_standsFor e hd, ofDatumAll?_of_standFor es hds]
end

mutual
theorem standsFor_of_ofDatum? : (d : Datum) → {e : Expr} → ofDatum? d = .ok e → d.StandsFor e
  | .scalar n, e, h => by
    cases n with
    | absent =>
      simp only [ofDatum?, Except.ok.injEq] at h
      subst h
      exact .missing
    | _ => simp [ofDatum?] at h
  | .text _, _, h => by simp [ofDatum?] at h
  | .list _, _, h => by simp [ofDatum?] at h
  | .mapping fs _, e, h => by
    rw [ofDatum?] at h
    -- One case for each kind that a mapping can name, and the mappings that name none of them.
    split at h
    case h_1 ht =>
      obtain ⟨v, hv, rfl⟩ := map_eq_ok.mp h
      exact .const ht (required_eq_ok.mp hv)
    case h_2 ht =>
      obtain ⟨name, hname, rfl⟩ := map_eq_ok.mp h
      exact .var ht (required_eq_ok.mp hname)
    case h_3 ht =>
      simp only [bind_eq_ok, required_eq_ok, readSymbol_eq_ok, UnaryOp.isPartialInv_symbol _ _,
        ofField?_eq_ok, pure_eq_ok] at h
      obtain ⟨_, hop, op, ⟨_, rfl, rfl⟩, x, ⟨c, hc, hx⟩, rfl⟩ := h
      have := Datum.sizeOf_field?_lt hc
      exact .unary op ht hop hc (standsFor_of_ofDatum? c hx)
    case h_4 ht =>
      simp only [bind_eq_ok, required_eq_ok, readSymbol_eq_ok, BinaryOp.isPartialInv_symbol _ _,
        ofField?_eq_ok, pure_eq_ok] at h
      obtain ⟨_, hop, op, ⟨_, rfl, rfl⟩, l, ⟨c, hc, hl⟩, r, ⟨c', hc', hr⟩, rfl⟩ := h
      have := Datum.sizeOf_field?_lt hc
      have := Datum.sizeOf_field?_lt hc'
      exact .binary op ht hop hc hc' (standsFor_of_ofDatum? c hl) (standsFor_of_ofDatum? c' hr)
    case h_5 ht =>
      simp only [bind_eq_ok, required_eq_ok, Signature.call_eq_ok] at h
      obtain ⟨c, hc, s, hs, es, hes, haccepts, rfl⟩ := h
      refine .call ht hc hs ?_ haccepts
      obtain ⟨hx, rfl⟩ | ⟨hx, rfl⟩ | ⟨ss, hx, hss, rfl⟩ | ⟨ds, hx, hes⟩ :=
        ofArguments?_eq_ok.mp hes
      · exact hx ▸ .none
      · exact hx ▸ .text
      · exact hx ▸ .mapping hss
      · have hsize : sizeOf ds < sizeOf fs := by
          have := Datum.sizeOf_field?_lt hx
          rw [Datum.list.sizeOf_spec] at this
          omega
        exact hx ▸ .list (allStandFor_of_ofDatumAll? ds hes)
    case h_6 ht =>
      simp only [bind_eq_ok, required_eq_ok, readSymbol_eq_ok, Relation.isPartialInv_symbol _ _,
        ofField?_eq_ok, pure_eq_ok] at h
      obtain ⟨_, hop, rel, ⟨_, rfl, rfl⟩, l, ⟨c, hc, hl⟩, r, ⟨c', hc', hr⟩, rfl⟩ := h
      have := Datum.sizeOf_field?_lt hc
      have := Datum.sizeOf_field?_lt hc'
      exact .compare rel ht hop hc hc' (standsFor_of_ofDatum? c hl) (standsFor_of_ofDatum? c' hr)
    all_goals cases h
termination_by d => sizeOf d
decreasing_by all_goals (simp; omega)
theorem allStandFor_of_ofDatumAll? : (ds : List Datum) → {es : List Expr} →
    ofDatumAll? ds = .ok es → Datum.AllStandFor ds es
  | [], es, h => by
    rw [ofDatumAll?] at h
    cases h
    exact .nil
  | d :: ds, es, h => by
    simp only [ofDatumAll?, bind_eq_ok, pure_eq_ok] at h
    obtain ⟨e, he, es, hes, rfl⟩ := h
    exact .cons (standsFor_of_ofDatum? d he) (allStandFor_of_ofDatumAll? ds hes)
termination_by ds => sizeOf ds
end

theorem ofDatum?_eq_ok : ofDatum? d = .ok e ↔ d.StandsFor e :=
  ⟨standsFor_of_ofDatum? d, ofDatum?_of_standsFor e⟩

end Expr

-- ---------------------------------------------------------------------------
-- The datum of a tree
-- ---------------------------------------------------------------------------

/-- A call has a number of arguments that its function accepts. -/
def Expr.Accepted : Expr → Prop
  | .call d es => d.signature.accepts es.length = some true
  | _ => True

/-- No leaf has parts, nor does the signature of a call. -/
def Expr.Plain : Expr → Prop
  | .const d | .var d => d.isAtom = true
  | .call d _ => d.signature.isAtomic = true
  | _ => True

theorem Signature.ofDatum?_toDatum (s : Signature) : ofDatum? s.toDatum = .ok s :=
  ofDatum?_eq_ok.mpr ⟨_, _, rfl, by simp [field?], by simp [field?], by simp [field?]⟩

namespace Expr

open Formula.Expr (Everywhere EverywhereAll)

mutual
theorem standsFor_toDatum : (e : Expr) → e.Everywhere Accepted → e.toDatum.StandsFor e.erase
  | .missing, _ => .missing
  | .const _, _ => .const (by simp [field?]) (by simp [field?])
  | .var _, _ => .var (by simp [field?]) (by simp [field?])
  | .unary op e, h =>
    .unary op (by simp [field?]) (by simp [field?]) (by simp [field?]) (standsFor_toDatum e h.2)
  | .binary op l r, h =>
    .binary op (by simp [field?]) (by simp [field?]) (by simp [field?]) (by simp [field?])
      (standsFor_toDatum l h.2.1) (standsFor_toDatum r h.2.2)
  | .compare rel l r, h =>
    .compare rel (by simp [field?]) (by simp [field?]) (by simp [field?]) (by simp [field?])
      (standsFor_toDatum l h.2.1) (standsFor_toDatum r h.2.2)
  | .call d es, h => by
    refine .call (by simp [field?]) (by simp [field?]) d.signature.ofDatum?_toDatum ?_ ?_
    · simp only [field?, String.reduceEq, if_false, if_true]
      exact .list (allStandFor_toDatumAll es h.2)
    · rw [eraseAll_eq, List.length_map]
      exact h.1
theorem allStandFor_toDatumAll : (es : List Expr) → EverywhereAll Accepted es →
    Datum.AllStandFor (toDatumAll es) (eraseAll es)
  | [], _ => .nil
  | e :: es, h => .cons (standsFor_toDatum e h.1) (allStandFor_toDatumAll es h.2)
end

end Expr

-- ---------------------------------------------------------------------------
-- Entries in another order
-- ---------------------------------------------------------------------------

/-- The second signature is the first one, but for the order of entries in it. -/
structure Signature.Kept (s s' : Signature) : Prop where
  reordered : s.toDatum.Reordered s'.toDatum
  eq : s.isAtomic = true → s' = s
  accepts (count : Int) : s'.accepts count = s.accepts count

theorem Signature.exists_kept {s : Signature} (h : s.toDatum.Reordered d) :
    ∃ s', ofDatum? d = .ok s' ∧ s.Kept s' := by
  obtain ⟨fs, rfl, hfs⟩ := h.exists_record (by simp)
  obtain ⟨name, hname, hn⟩ := hfs "name" s.name (by simp [field?])
  obtain ⟨least, hleast, hl⟩ := hfs "min_args" s.least (by simp [field?])
  obtain ⟨most, hmost, hm⟩ := hfs "max_args" s.most (by simp [field?])
  refine ⟨⟨name, least, most⟩, ofDatum?_eq_ok.mpr ⟨fs, _, rfl, hname, hleast, hmost⟩, ?_, ?_, ?_⟩
  · exact .record (.cons _ hn (.cons _ hl (.cons _ hm .nil))) (.refl _)
  · intro ha
    simp only [isAtomic, Bool.and_eq_true] at ha
    obtain ⟨⟨hna, hla⟩, hma⟩ := ha
    rw [← hn.eq_of_isAtom hna, ← hl.eq_of_isAtom hla, ← hm.eq_of_isAtom hma]
  · intro count
    simp only [accepts, (hl.atMost?_scalar _).1, (hm.atMost?_scalar _).2]

section Pair

variable {kind symbol : String} {l r l' r' : Datum}

theorem reordered_pair (hl : l.Reordered l') (hr : r.Reordered r') :
    Reordered (.record [("type", .text kind), ("operator", .text symbol), ("left", l),
      ("right", r)]) (.record [("type", .text kind), ("operator", .text symbol), ("left", l'),
      ("right", r')]) :=
  .record (.cons _ (.text _) (.cons _ (.text _) (.cons _ hl (.cons _ hr .nil)))) (.refl _)

theorem exists_of_reordered_pair (h : Reordered (.record [("type", .text kind),
    ("operator", .text symbol), ("left", l), ("right", r)]) d) :
    ∃ fs, d = .record fs ∧ ∃ l' r', field? fs "type" = some (.text kind) ∧
      field? fs "operator" = some (.text symbol) ∧ field? fs "left" = some l' ∧
      field? fs "right" = some r' ∧ l.Reordered l' ∧ r.Reordered r' := by
  obtain ⟨fs, rfl, hfs⟩ := h.exists_record (by simp)
  obtain ⟨_, ht, ⟨⟩⟩ := hfs "type" (.text kind) (by simp [field?])
  obtain ⟨_, hop, ⟨⟩⟩ := hfs "operator" (.text symbol) (by simp [field?])
  obtain ⟨l', hl', hl⟩ := hfs "left" l (by simp [field?])
  obtain ⟨r', hr', hr⟩ := hfs "right" r (by simp [field?])
  exact ⟨fs, rfl, l', r', ht, hop, hl', hr', hl, hr⟩

end Pair

namespace Expr

structure Kept (e e' : Expr) : Prop where
  erase_eq : e'.erase = e'
  reordered : e.toDatum.Reordered e'.toDatum
  eq_erase : e.Everywhere Plain → e' = e.erase

structure KeptAll (es es' : List Expr) : Prop where
  eraseAll_eq : eraseAll es' = es'
  reordered : ReorderedItems (toDatumAll es) (toDatumAll es')
  eq_eraseAll : EverywhereAll Plain es → es' = eraseAll es
  length_eq : es'.length = es.length

mutual
theorem exists_kept : (e : Expr) → {d : Datum} → e.Everywhere Accepted → e.toDatum.Reordered d →
    ∃ e', d.StandsFor e' ∧ e.Kept e'
  | .missing, _, _, .scalar _ => ⟨.missing, .missing, rfl, .scalar _, fun _ => rfl⟩
  | .const v, d, _, h => by
    obtain ⟨fs, rfl, hfs⟩ := h.exists_record (by simp)
    obtain ⟨_, ht, ⟨⟩⟩ := hfs "type" (.text "const") (by simp [field?])
    obtain ⟨v', hv, hr⟩ := hfs "value" v (by simp [field?])
    refine ⟨.const v', .const ht hv, rfl, ?_, fun hp => ?_⟩
    · exact .record (.cons _ (.text _) (.cons _ hr .nil)) (.refl _)
    · rw [erase, hr.eq_of_isAtom hp]
  | .var name, d, _, h => by
    obtain ⟨fs, rfl, hfs⟩ := h.exists_record (by simp)
    obtain ⟨_, ht, ⟨⟩⟩ := hfs "type" (.text "var") (by simp [field?])
    obtain ⟨name', hname, hr⟩ := hfs "name" name (by simp [field?])
    refine ⟨.var name', .var ht hname, rfl, ?_, fun hp => ?_⟩
    · exact .record (.cons _ (.text _) (.cons _ hr .nil)) (.refl _)
    · rw [erase, hr.eq_of_isAtom hp]
  | .unary op e, d, he, h => by
    obtain ⟨fs, rfl, hfs⟩ := h.exists_record (by simp)
    obtain ⟨_, ht, ⟨⟩⟩ := hfs "type" (.text "unary") (by simp [field?])
    obtain ⟨_, hop, ⟨⟩⟩ := hfs "operator" (.text op.symbol) (by simp [field?])
    obtain ⟨c, hc, hr⟩ := hfs "operand" e.toDatum (by simp [field?])
    obtain ⟨e', hst, hkept⟩ := exists_kept e he.2 hr
    refine ⟨.unary op e', .unary op ht hop hc hst, ?_, ?_, fun hp => ?_⟩
    · rw [erase, hkept.erase_eq]
    · exact .record (.cons _ (.text _) (.cons _ (.text _) (.cons _ hkept.reordered .nil))) (.refl _)
    · rw [erase, hkept.eq_erase hp.2]
  | .binary op l r, d, he, h => by
    obtain ⟨fs, rfl, c, c', ht, hop, hc, hc', hl, hr⟩ := exists_of_reordered_pair h
    obtain ⟨l', hstl, hkl⟩ := exists_kept l he.2.1 hl
    obtain ⟨r', hstr, hkr⟩ := exists_kept r he.2.2 hr
    refine ⟨.binary op l' r', .binary op ht hop hc hc' hstl hstr, ?_, ?_, fun hp => ?_⟩
    · rw [erase, hkl.erase_eq, hkr.erase_eq]
    · exact reordered_pair hkl.reordered hkr.reordered
    · rw [erase, hkl.eq_erase hp.2.1, hkr.eq_erase hp.2.2]
  | .compare rel l r, d, he, h => by
    obtain ⟨fs, rfl, c, c', ht, hop, hc, hc', hl, hr⟩ := exists_of_reordered_pair h
    obtain ⟨l', hstl, hkl⟩ := exists_kept l he.2.1 hl
    obtain ⟨r', hstr, hkr⟩ := exists_kept r he.2.2 hr
    refine ⟨.compare rel l' r', .compare rel ht hop hc hc' hstl hstr, ?_, ?_, fun hp => ?_⟩
    · rw [erase, hkl.erase_eq, hkr.erase_eq]
    · exact reordered_pair hkl.reordered hkr.reordered
    · rw [erase, hkl.eq_erase hp.2.1, hkr.eq_erase hp.2.2]
  | .call c es, d, he, h => by
    obtain ⟨fs, rfl, hfs⟩ := h.exists_record (by simp)
    obtain ⟨_, ht, ⟨⟩⟩ := hfs "type" (.text "call") (by simp [field?])
    obtain ⟨c', hc, hr⟩ := hfs "definition" c.signature.toDatum (by simp [field?])
    obtain ⟨_, hargs, _ | _ | hitems⟩ := hfs "arguments" (.list (toDatumAll es)) (by simp [field?])
    obtain ⟨s, hs, hks⟩ := Signature.exists_kept hr
    obtain ⟨es', hsts, hkepts⟩ := exists_keptAll es he.2 hitems
    refine ⟨.call ⟨s, none⟩ es', .call ht hc hs (hargs ▸ .list hsts) ?_, ?_, ?_, fun hp => ?_⟩
    · rw [hks.accepts, hkepts.length_eq]
      exact he.1
    · rw [erase, hkepts.eraseAll_eq]
      rfl
    · exact .record (.cons _ (.text _) (.cons _ hks.reordered
        (.cons _ (.list hkepts.reordered) .nil))) (.refl _)
    · rw [erase, hks.eq hp.1, hkepts.eq_eraseAll hp.2]
      rfl
theorem exists_keptAll : (es : List Expr) → {ds : List Datum} → EverywhereAll Accepted es →
    ReorderedItems (toDatumAll es) ds → ∃ es', Datum.AllStandFor ds es' ∧ KeptAll es es'
  | [], _, _, .nil => ⟨[], .nil, rfl, .nil, fun _ => rfl, rfl⟩
  | e :: es, _, he, .cons hd hds => by
    obtain ⟨e', hst, hkept⟩ := exists_kept e he.1 hd
    obtain ⟨es', hsts, hkepts⟩ := exists_keptAll es he.2 hds
    refine ⟨e' :: es', .cons hst hsts, ?_, ?_, fun hp => ?_, ?_⟩
    · rw [eraseAll, hkept.erase_eq, hkepts.eraseAll_eq]
    · exact .cons hkept.reordered hkepts.reordered
    · rw [eraseAll, hkept.eq_erase hp.1, hkepts.eq_eraseAll hp.2]
    · rw [List.length_cons, List.length_cons, hkepts.length_eq]
end

end Expr

-- ---------------------------------------------------------------------------
-- Equality
-- ---------------------------------------------------------------------------

theorem Signature.same_toDatum (s t : Signature) : s.toDatum.same t.toDatum = s.same t := by
  simp [toDatum, Datum.same, Datum.sameFields, Datum.sameStrays, field?, same, Bool.and_assoc]

namespace Expr

mutual
theorem same_toDatum : (e e' : Expr) → e.toDatum.same e'.toDatum = e.same e'
  | .missing, e' => by cases e' <;> simp [toDatum, same, Datum.null, Datum.same, Number.same]
  | .const v, e' => by
    cases e' <;> simp [toDatum, same, Datum.null, Datum.same, Datum.sameFields,
      Datum.sameStrays, field?]
  | .var name, e' => by
    cases e' <;> simp [toDatum, same, Datum.null, Datum.same, Datum.sameFields,
      Datum.sameStrays, field?]
  | .unary op e, e' => by
    cases e' <;> simp [toDatum, same, Datum.null, Datum.same, Datum.sameFields,
      Datum.sameStrays, field?, UnaryOp.isPartialInv_symbol.injective.beq_eq, same_toDatum e]
  | .binary op l r, e' => by
    cases e' <;> simp [toDatum, same, Datum.null, Datum.same, Datum.sameFields,
      Datum.sameStrays, field?, BinaryOp.isPartialInv_symbol.injective.beq_eq, same_toDatum l,
      same_toDatum r, Bool.and_assoc]
  | .compare rel l r, e' => by
    cases e' <;> simp [toDatum, same, Datum.null, Datum.same, Datum.sameFields,
      Datum.sameStrays, field?, Relation.isPartialInv_symbol.injective.beq_eq, same_toDatum l,
      same_toDatum r, Bool.and_assoc]
  | .call d es, e' => by
    cases e' <;> simp [toDatum, same, Datum.null, Datum.same, Datum.sameFields,
      Datum.sameStrays, field?, Signature.same_toDatum, same_toDatumAll es]
theorem same_toDatumAll : (es es' : List Expr) →
    Datum.sameItems (toDatumAll es) (toDatumAll es') = sameAll es es'
  | [], es' => by cases es' <;> simp [toDatumAll, Datum.sameItems, sameAll]
  | e :: es, es' => by
    cases es' <;>
      simp [toDatumAll, Datum.sameItems, sameAll, same_toDatum e, same_toDatumAll es]
end

end Expr

end Formula
