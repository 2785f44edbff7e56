import Formula.Proofs.StoredTrees

/-!
# Storing a tree and reading it again

A stored tree is read as the tree without the bodies of its functions, also after a notation has
put the entries of its records in another order. The other way round, what is read from a datum is
stored as that datum, without the entries that nothing reads.
-/

namespace Formula

open Datum (field? Reordered ReorderedItems)

/-- What a field of a stored tree holds. -/
inductive Role where
  | leaf
  | tree
  | trees
  | signature

namespace Datum

-- ---------------------------------------------------------------------------
-- Mappings without further entries
-- ---------------------------------------------------------------------------

def kindLayout : String → List (String × Role)
  | "const" => [("type", .leaf), ("value", .leaf)]
  | "var" => [("type", .leaf), ("name", .leaf)]
  | "unary" => [("type", .leaf), ("operator", .leaf), ("operand", .tree)]
  | "binary" | "compare" =>
    [("type", .leaf), ("operator", .leaf), ("left", .tree), ("right", .tree)]
  | "call" => [("type", .leaf), ("definition", .signature), ("arguments", .trees)]
  | _ => []

def treeLayout (fs : List (String × Datum)) : List (String × Role) :=
  match field? fs "type" with
  | some (.text kind) => kindLayout kind
  | _ => []

def signatureLayout : List (String × Role) :=
  [("name", .leaf), ("min_args", .leaf), ("max_args", .leaf)]

def missingArguments (fs : List (String × Datum)) : List (String × Datum) :=
  match field? fs "type", field? fs "arguments" with
  | some (.text "call"), none => [("arguments", .list [])]
  | _, _ => []

mutual
/-- The datum without the entries that are not of its layout, at every level, and with an empty
list for arguments that are missing or empty. A mapping that has no names for arguments gives the
list of its keys. -/
def trimmed : Role → Datum → Datum
  | .tree, .mapping fs _ => .record (trimmedFields (treeLayout fs) fs ++ missingArguments fs)
  | .trees, .list ds => .list (trimmedAll ds)
  | .trees, .text "" => .list []
  | .trees, .mapping [] ss => .list (ss.map (.scalar ·.1))
  | .signature, .mapping fs _ => .record (trimmedFields signatureLayout fs)
  | _, d => d
def trimmedFields (layout : List (String × Role)) :
    List (String × Datum) → List (String × Datum)
  | [] => []
  | (key, d) :: rest =>
    match layout.lookup key with
    | some role => (key, d.trimmed role) :: trimmedFields layout rest
    | none => trimmedFields layout rest
def trimmedAll : List Datum → List Datum
  | [] => []
  | d :: ds => d.trimmed .tree :: trimmedAll ds
end

mutual
/-- No mapping has two fields of one name, nor has one below a field. -/
def KeysDistinct : Datum → Prop
  | .scalar _ | .text _ => True
  | .list ds => KeysDistinctAll ds
  | .mapping fs _ => (fs.map (·.1)).Nodup ∧ KeysDistinctFields fs
def KeysDistinctAll : List Datum → Prop
  | [] => True
  | d :: ds => d.KeysDistinct ∧ KeysDistinctAll ds
def KeysDistinctFields : List (String × Datum) → Prop
  | [] => True
  | (_, d) :: rest => d.KeysDistinct ∧ KeysDistinctFields rest
end

variable {fs : List (String × Datum)} {layout : List (String × Role)}

theorem KeysDistinctFields.of_field? (h : KeysDistinctFields fs) (hd : field? fs name = some d) :
    d.KeysDistinct := by
  induction fs with
  | nil => cases hd
  | cons f fs ih =>
    obtain ⟨key, v⟩ := f
    rw [field?] at hd
    split at hd
    · cases hd
      exact h.1
    · exact ih h.2 hd

@[simp] theorem trimmed_leaf (d : Datum) : d.trimmed .leaf = d := by
  cases d <;> simp [trimmed]

theorem trimmedFields_eq : trimmedFields layout fs =
    fs.filterMap fun f => (layout.lookup f.1).map fun role => (f.1, f.2.trimmed role) := by
  induction fs with
  | nil => rfl
  | cons f fs ih =>
    obtain ⟨key, d⟩ := f
    rw [trimmedFields, List.filterMap_cons]
    cases layout.lookup key <;> simp [ih]

theorem nodup_filterMap {α β : Type} {l : List (String × α)} {f : String × α → Option (String × β)}
    (h : (l.map (·.1)).Nodup) (hf : ∀ x y, f x = some y → y.1 = x.1) : (l.filterMap f).Nodup := by
  rw [List.nodup_iff_pairwise_ne, List.pairwise_map] at h
  refine List.pairwise_filterMap.mpr (h.imp ?_)
  intro x x' hne y hy y' hy' heq
  rw [← hf x y hy, heq, hf x' y' hy'] at hne
  exact hne rfl

theorem perm_trimmedFields (hlayout : (layout.map (·.1)).Nodup) (hfs : (fs.map (·.1)).Nodup) :
    (layout.filterMap fun f => (field? fs f.1).map fun d => (f.1, d.trimmed f.2)).Perm
      (trimmedFields layout fs) := by
  rw [trimmedFields_eq]
  refine (List.perm_ext_iff_of_nodup (nodup_filterMap hlayout ?_) (nodup_filterMap hfs ?_)).mpr ?_
  · rintro x y hy
    obtain ⟨_, -, rfl⟩ := Option.map_eq_some_iff.mp hy
    rfl
  · rintro x y hy
    obtain ⟨_, -, rfl⟩ := Option.map_eq_some_iff.mp hy
    rfl
  · rintro ⟨key, v⟩
    simp only [List.mem_filterMap, Option.map_eq_some_iff, field?_eq_some hfs,
      lookup_eq_some hlayout, Prod.mk.injEq]
    constructor
    · rintro ⟨⟨_, role⟩, hmem, d, hd, rfl, rfl⟩
      exact ⟨⟨_, d⟩, hd, role, hmem, rfl, rfl⟩
    · rintro ⟨⟨_, d⟩, hd, role, hmem, rfl, rfl⟩
      exact ⟨⟨_, role⟩, hmem, d, hd, rfl, rfl⟩

theorem nodup_kindLayout (kind : String) : ((kindLayout kind).map (·.1)).Nodup := by
  unfold kindLayout
  split <;> simp

def found (layout : List (String × Role)) (fs : List (String × Datum)) : List (String × Datum) :=
  layout.filterMap fun f => (field? fs f.1).map fun d => (f.1, d.trimmed f.2)

theorem reordered_trimmed_tree (hd : (mapping fs ss).KeysDistinct)
    (ht : field? fs "type" = some (.text kind))
    (h : ReorderedEntries gs (found (kindLayout kind) fs ++ missingArguments fs)) :
    (record gs).Reordered ((mapping fs ss).trimmed .tree) := by
  have hperm := perm_trimmedFields (nodup_kindLayout kind) hd.1
  simp only [trimmed, treeLayout, ht]
  exact .record h (hperm.append_right _)

theorem reordered_replicate {ss : List (Number × Datum)} (h : ∀ s ∈ ss, s.1 = .absent) :
    Reordered (.list (Expr.toDatumAll (.replicate ss.length .missing)))
      ((mapping [] ss).trimmed .trees) := by
  have hkeys : ss.map (Datum.scalar ·.1) = Expr.toDatumAll (.replicate ss.length .missing) := by
    induction ss with
    | nil => rfl
    | cons s ss ih =>
      obtain ⟨hs, hss⟩ := List.forall_mem_cons.mp h
      rw [List.map_cons, hs, ih hss]
      rfl
  rw [trimmed, hkeys]
  exact .refl _

theorem missingArguments_eq_nil (ht : field? fs "type" = some (.text kind))
    (hkind : kind ≠ "call" ∨ (field? fs "arguments").isSome = true) : missingArguments fs = [] := by
  unfold missingArguments
  split
  · simp_all
  · rfl

/-- Operators between two trees and relations have mappings of one form. -/
theorem reordered_trimmed_pair {l r : Datum} (hkind : kind = "binary" ∨ kind = "compare")
    (hd : (mapping fs ss).KeysDistinct) (ht : field? fs "type" = some (.text kind))
    (hop : field? fs "operator" = some symbol) (hc : field? fs "left" = some c)
    (hc' : field? fs "right" = some c') (hl : l.Reordered (c.trimmed .tree))
    (hr : r.Reordered (c'.trimmed .tree)) :
    (record [("type", .text kind), ("operator", symbol), ("left", l), ("right", r)]).Reordered
      ((mapping fs ss).trimmed .tree) := by
  refine reordered_trimmed_tree hd ht ?_
  have hlayout : kindLayout kind =
      [("type", .leaf), ("operator", .leaf), ("left", .tree), ("right", .tree)] := by
    rcases hkind with rfl | rfl <;> rfl
  have hcall : kind ≠ "call" := by rcases hkind with rfl | rfl <;> decide
  simp only [missingArguments_eq_nil ht (.inl hcall), found, hlayout, List.filterMap_cons, ht, hop,
    hc, hc', Option.map_some, trimmed_leaf]
  exact .cons _ (.refl _) (.cons _ (.refl _) (.cons _ hl (.cons _ hr .nil)))

end Datum

namespace Signature

theorem reordered_trimmed {s : Signature} (h : ofDatum? d = .ok s) (hd : d.KeysDistinct) :
    s.toDatum.Reordered (d.trimmed .signature) := by
  obtain ⟨fs, _, rfl, hname, hleast, hmost⟩ := ofDatum?_eq_ok.mp h
  have hperm := Datum.perm_trimmedFields
    (show (Datum.signatureLayout.map (·.1)).Nodup by decide) hd.1
  simp only [Datum.signatureLayout, List.filterMap_cons, List.filterMap_nil, hname, hleast, hmost,
    Option.map_some, Datum.trimmed_leaf] at hperm
  exact .record (.cons _ (.refl _) (.cons _ (.refl _) (.cons _ (.refl _) .nil))) hperm

end Signature

namespace Expr

open Datum (kindLayout found missingArguments missingArguments_eq_nil reordered_replicate
  reordered_trimmed_tree reordered_trimmed_pair)

mutual
theorem reordered_trimmed : (e : Expr) → {d : Datum} → d.StandsFor e → d.KeysDistinct →
    e.toDatum.Reordered (d.trimmed .tree)
  | .missing, _, .missing, _ => .scalar _
  | .const v, .mapping fs _, .const ht hv, hd => by
    refine reordered_trimmed_tree hd ht ?_
    simp only [missingArguments_eq_nil ht (.inl (by decide)), found, kindLayout,
      List.filterMap_cons, ht, hv, Option.map_some, Datum.trimmed_leaf]
    exact .cons _ (.refl _) (.cons _ (.refl _) .nil)
  | .var name, .mapping fs _, .var ht hname, hd => by
    refine reordered_trimmed_tree hd ht ?_
    simp only [missingArguments_eq_nil ht (.inl (by decide)), found, kindLayout,
      List.filterMap_cons, ht, hname, Option.map_some, Datum.trimmed_leaf]
    exact .cons _ (.refl _) (.cons _ (.refl _) .nil)
  | .unary op e, .mapping fs _, .unary _ ht hop hc hst, hd => by
    refine reordered_trimmed_tree hd ht ?_
    simp only [missingArguments_eq_nil ht (.inl (by decide)), found, kindLayout,
      List.filterMap_cons, ht, hop, hc, Option.map_some, Datum.trimmed_leaf]
    exact .cons _ (.refl _) (.cons _ (.refl _)
      (.cons _ (reordered_trimmed e hst (hd.2.of_field? hc)) .nil))
  | .binary op l r, .mapping fs _, .binary _ ht hop hl hr hstl hstr, hd =>
    reordered_trimmed_pair (.inl rfl) hd ht hop hl hr
      (reordered_trimmed l hstl (hd.2.of_field? hl)) (reordered_trimmed r hstr (hd.2.of_field? hr))
  | .compare rel l r, .mapping fs _, .compare _ ht hop hl hr hstl hstr, hd =>
    reordered_trimmed_pair (.inr rfl) hd ht hop hl hr
      (reordered_trimmed l hstl (hd.2.of_field? hl)) (reordered_trimmed r hstr (hd.2.of_field? hr))
  | .call _ es, .mapping fs _, .call (c := c) ht hc hs hes _, hd => by
    refine reordered_trimmed_tree hd ht ?_
    -- Arguments that are missing or empty have become an empty list.
    obtain ⟨c', hfields, hitems⟩ : ∃ c', found (kindLayout "call") fs ++ missingArguments fs =
        [("type", .text "call"), ("definition", c.trimmed .signature), ("arguments", c')] ∧
          Reordered (.list (toDatumAll es)) c' := by
      cases hx : field? fs "arguments" with
      | none =>
        cases hx ▸ hes
        exact ⟨.list [], by simp [found, kindLayout, missingArguments, ht, hc, hx], .list .nil⟩
      | some a =>
        refine ⟨a.trimmed .trees, by simp [found, kindLayout, missingArguments, ht, hc, hx], ?_⟩
        cases hx ▸ hes with
        | text => exact .list .nil
        | mapping h => exact reordered_replicate h
        | list h => exact .list (reordered_trimmedAll es h (hd.2.of_field? hx))
    rw [hfields]
    have hsignature := Signature.reordered_trimmed hs (hd.2.of_field? hc)
    exact .cons _ (.refl _) (.cons _ hsignature (.cons _ hitems .nil))
theorem reordered_trimmedAll : (es : List Expr) → {ds : List Datum} → Datum.AllStandFor ds es →
    Datum.KeysDistinctAll ds → ReorderedItems (toDatumAll es) (Datum.trimmedAll ds)
  | [], _, .nil, _ => .nil
  | e :: es, _, .cons hst hsts, hd =>
    .cons (reordered_trimmed e hst hd.1) (reordered_trimmedAll es hsts hd.2)
end

end Expr

-- ---------------------------------------------------------------------------
-- Both ways
-- ---------------------------------------------------------------------------

/-- A stored tree whose calls have as many arguments as they accept is read as the tree without
bodies. So it is in any order of entries, where a leaf that has parts keeps the order that it was
found in. What is read from a datum is stored as the datum without its further entries, in some
order, and with a list for the arguments; and trees are stored alike just when they are equal. -/
theorem stored_trees_are_read_back :
    (∀ e : Expr, e.Everywhere Expr.Accepted →
      Expr.ofDatum? e.toDatum = .ok e.erase ∧
      ∀ d, e.toDatum.Reordered d → ∃ e', Expr.ofDatum? d = .ok e' ∧ e'.erase = e' ∧
        e.toDatum.Reordered e'.toDatum ∧ (e.Everywhere Expr.Plain → e' = e.erase)) ∧
    (∀ (d : Datum) (e : Expr), d.KeysDistinct → Expr.ofDatum? d = .ok e →
      e.toDatum.Reordered (d.trimmed .tree)) ∧
    (∀ e e' : Expr, e.toDatum.same e'.toDatum = e.same e') ∧
    ∀ e e' : Expr, e.Everywhere Expr.Accepted → e'.Everywhere Expr.Accepted →
      e.toDatum = e'.toDatum → e.erase = e'.erase := by
  have hread (e : Expr) (he : e.Everywhere Expr.Accepted) : Expr.ofDatum? e.toDatum = .ok e.erase :=
    Expr.ofDatum?_eq_ok.mpr (e.standsFor_toDatum he)
  refine ⟨fun e he => ⟨hread e he, fun d hd => ?_⟩, fun d e hd he => ?_, Expr.same_toDatum,
    fun e e' he he' heq => ?_⟩
  · obtain ⟨e', hst, hkept⟩ := Expr.exists_kept e he hd
    exact ⟨e', Expr.ofDatum?_eq_ok.mpr hst, hkept.erase_eq, hkept.reordered, hkept.eq_erase⟩
  · exact e.reordered_trimmed (Expr.ofDatum?_eq_ok.mp he) hd
  · have h := hread e he
    rw [heq, hread e' he'] at h
    exact (Except.ok.inj h).symm

/-- A call with a missing argument, its fields sorted by name; and a call without a field of
arguments that carries a note. -/
theorem stored_trees_are_read_back_sorted :
    let f : Definition := ⟨.of "f" 0 2, some .first⟩
    let e : Expr := .unary .negate (.call f [.named "x", .missing])
    let s : Datum := .record [("max_args", .scalar (.whole 2)), ("min_args", .scalar (.whole 0)),
      ("name", .text "f")]
    let d : Datum := .record [
      ("operand", .record [
        ("arguments", .list [.record [("name", .text "x"), ("type", .text "var")], .null]),
        ("definition", s),
        ("type", .text "call")]),
      ("operator", .text "neg"),
      ("type", .text "unary")]
    let d' : Datum := .record [("definition", s), ("note", .text "late"), ("type", .text "call")]
    Expr.ofDatum? d = .ok e.erase ∧
      (Expr.call f.erase []).toDatum.Reordered (d'.trimmed .tree) ∧
      d'.trimmed .tree =
        .record [("definition", s), ("type", .text "call"), ("arguments", .list [])] := by
  intro f e s d d'
  obtain ⟨hread, hstored, -⟩ := stored_trees_are_read_back
  refine ⟨?_, ?_, rfl⟩
  · have haccepts : f.signature.accepts (2 : Nat) = some true := by decide
    have he : e.Everywhere Expr.Accepted := ⟨trivial, haccepts, trivial, trivial, trivial⟩
    have hplain : e.Everywhere Expr.Plain := ⟨trivial, rfl, rfl, trivial, trivial⟩
    have hd : e.toDatum.Reordered d :=
      .record (.cons _ (.text _) (.cons _ (.text _) (.cons _
        (.record (.cons _ (.text _) (.cons _
          (.record (.refl _) (List.reverse_perm _).symm) (.cons _
          (.list (.cons (.record (.refl _) (List.reverse_perm _).symm) (.cons (.scalar _) .nil)))
          .nil))) (List.reverse_perm _).symm) .nil))) (List.reverse_perm _).symm
    obtain ⟨e', hd, -, -, heq⟩ := (hread e he).2 d hd
    rwa [heq hplain] at hd
  · have hd : d'.KeysDistinct := by
      simp [d', s, Datum.KeysDistinct, Datum.KeysDistinctFields]
    have he : Expr.ofDatum? d' = .ok (.call f.erase []) :=
      Expr.ofDatum?_eq_ok.mpr (.call rfl rfl rfl .none (by decide))
    exact hstored d' _ hd he

/-- The keys of a mapping stand for arguments. The only key here is absent and stands for a missing
tree, which is not stored as the mapping that it was read from. -/
theorem absent_key_becomes_an_argument :
    let f : Definition := ⟨.of "f" 0 1, none⟩
    let d : Datum := .record [
      ("type", .text "call"),
      ("definition", f.signature.toDatum),
      ("arguments", .mapping [] [(.absent, .scalar (.whole 1))])]
    Expr.ofDatum? d = .ok (.call f [.missing]) ∧
      (Expr.call f [.missing]).toDatum = .record [
        ("type", .text "call"),
        ("definition", f.signature.toDatum),
        ("arguments", .list [.null])] ∧
      (Expr.call f [.missing]).toDatum.same d = false := by
  intro f d
  have hkeys : ∀ s ∈ [(Number.absent, Datum.scalar (.whole 1))], s.1 = .absent := by simp
  refine ⟨Expr.ofDatum?_eq_ok.mpr (.call rfl rfl rfl (.mapping hkeys) (by decide)), rfl, ?_⟩
  decide

end Formula
