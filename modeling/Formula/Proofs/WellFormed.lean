import Formula.Proofs.Declared
import Formula.Proofs.Everywhere
import Formula.Proofs.Readings
import Formula.Proofs.Reduction

/-!
# Trees that are read are well formed

No tree that comes of a text has a part that is missing or a comparison. Its
variables are declared, and so are the functions that it calls, each with a number
of arguments that it accepts.
-/

namespace Formula

open Formula.Expr (Everywhere EverywhereAll everywhereAll_iff)

variable {o : Options}

/-- What is right about a tree, apart from the trees below it. -/
def Expr.WellFormed (o : Options) : Expr → Prop
  | .missing | .compare .. => False
  | .var name => ∃ x ∈ o.variableNames.texts, name = .text x
  | .call d es => d ∈ o.functions.definitions ∧ d.signature.accepts es.length = some true
  | .const _ | .unary .. | .binary .. => True

open Formula.Expr (WellFormed)

theorem Expr.WellFormed.fitsVariables (h : WellFormed o e) :
    e.fitsVariables = true ∧ e ≠ .missing := by
  cases e with
  | missing => exact h.elim
  | var =>
    obtain ⟨x, -, rfl⟩ := h
    exact ⟨rfl, nofun⟩
  | _ => exact ⟨rfl, nofun⟩

theorem Expr.WellFormed.fitsCalls (hd : Declared o) (h : WellFormed o e) :
    e.fitsCalls = true ∧ e ≠ .missing := by
  cases e with
  | missing => exact h.elim
  | call d es => exact ⟨hd.isAtomic h.1, nofun⟩
  | _ => exact ⟨rfl, nofun⟩

namespace Part

def Sound (o : Options) : Part → Prop
  | .pending _ => True
  | .arguments es => EverywhereAll (WellFormed o) es
  | .tree e => e.Everywhere (WellFormed o)

theorem sound_nameLeaf {p : Part} (h : p.Sound o) : (nameLeaf o.variableNames.texts p).Sound o := by
  cases p with
  | pending text =>
    rcases nameLeaf_pending o.variableNames.texts text with ⟨hv, h⟩ | ⟨-, e, hc, h⟩ | ⟨-, -, h⟩
    · rw [h]
      exact ⟨text, hv, rfl⟩
    · rw [h]
      rcases constant?_eq_some hc with ⟨-, rfl | rfl⟩
      · exact ⟨trivial, trivial⟩
      · trivial
    · rw [h]
      trivial
  | _ => exact h

theorem everywhere_builtin {b : Builtin} (h : b.call? es = some e)
    (hes : EverywhereAll (WellFormed o) es) : e.Everywhere (WellFormed o) := by
  unfold Builtin.call? at h
  split at h <;> cases h
  · exact ⟨trivial, hes.1⟩
  · exact ⟨trivial, hes.1, trivial⟩
  · exact ⟨trivial, ⟨trivial, trivial⟩, hes.1⟩
  · exact ⟨trivial, trivial, hes.1⟩
  · exact ⟨trivial, trivial, hes.1⟩
  · exact ⟨trivial, hes.1, hes.2.1⟩

theorem everywhere_call {p : Part} (hc : callee? o.functions p = some c)
    (h : c.call args = .ok e) (hes : EverywhereAll (WellFormed o) (args.getD [])) :
    e.Everywhere (WellFormed o) := by
  obtain ⟨name, rfl, ⟨d, hd, rfl⟩ | ⟨-, b, -, rfl⟩⟩ := callee?_eq_some.mp hc
  · obtain ⟨ha, rfl⟩ := Callee.call_declared_eq_ok.mp h
    exact ⟨⟨List.mem_of_find?_eq_some hd, ha⟩, hes⟩
  · obtain ⟨es, rfl, he⟩ := Callee.call_builtin_eq_ok.mp h
    exact everywhere_builtin he hes

theorem everywhere_arguments? {p : Part} (hp : p.Sound o) (h : p.arguments? = some es) :
    EverywhereAll (WellFormed o) es := by
  rcases arguments?_eq_some.mp h with rfl | ⟨e, -, rfl, rfl⟩
  · exact hp
  · exact ⟨hp, trivial⟩

theorem sound_called (h : Called o.functions ls p) (hls : ∀ q ∈ ls, q.Sound o) : p.Sound o := by
  cases h with
  | part => exact hls p (List.mem_singleton_self p)
  | bare hc he => exact everywhere_call hc he trivial
  | applied hc hn he =>
    exact everywhere_call hc he (everywhere_arguments? (hls _ (by simp)) hn)

theorem everywhere_sum (h : Sum o ps e) (hps : ∀ p ∈ ps, p.Sound o) :
    e.Everywhere (WellFormed o) := by
  have hP : Kept o fun ps e => (∀ p ∈ ps, p.Sound o) → e.Everywhere (WellFormed o) := by
    constructor
    case tree => exact fun _ h => h _ (List.mem_singleton_self _)
    case negated => exact fun h hps => ⟨trivial, h fun p hp => hps p (List.mem_cons_of_mem _ hp)⟩
    case power =>
      intro ls l rs r hl hr h
      rw [List.forall_mem_append, List.forall_mem_cons] at h
      unfold raise
      split
      · exact ⟨trivial, hr h.2.2⟩
      · exact ⟨trivial, hl h.1, hr h.2.2⟩
    case beside =>
      intro ls l rs r hl hr h
      rw [List.forall_mem_append] at h
      exact ⟨trivial, hl h.1, hr h.2⟩
    case minus =>
      intro ls l rs r hl hr h
      rw [List.forall_mem_append, List.forall_mem_cons] at h
      unfold difference
      split
      · exact ⟨trivial, hl h.1, trivial, hr h.2.2⟩
      · exact ⟨trivial, hl h.1, hr h.2.2⟩
    all_goals
      intro ls l rs r hl hr h
      rw [List.forall_mem_append, List.forall_mem_cons] at h
      exact ⟨trivial, hl h.1, hr h.2.2⟩
  exact hP.sum h hps

theorem everywhere_reduce (h : reduce o ps = .ok e) (hps : ∀ p ∈ ps, p.Sound o) :
    e.Everywhere (WellFormed o) := by
  obtain ⟨out, hout, hsum⟩ := reduce_eq_ok.mp h
  obtain ⟨called, hc, rfl⟩ := applyCalls_eq_ok.mp hout
  have hnamed : ∀ p ∈ nameLeaves o.variableNames.texts ps, p.Sound o :=
    List.forall_mem_map.mpr fun p hp => sound_nameLeaf (hps p hp)
  have hcalled := (makeCalls_ok hc false).forall_mem (fun _ _ _ => sound_called) hnamed
  exact everywhere_sum hsum fun p hp => hcalled p (List.mem_of_mem_filter hp)

end Part

namespace Parser

theorem sound_ofToken (t : Token) : (ofToken t).Sound o := by
  unfold ofToken
  split <;> trivial

theorem sound_ofGroup (h : ∀ e ∈ es, e.Everywhere (WellFormed o)) : (ofGroup es).Sound o := by
  unfold ofGroup
  split
  · exact h _ (List.mem_singleton_self _)
  · exact everywhereAll_iff.mpr h

theorem everywhere_readAt {p : Parser} (h : p.readAt shown room depth text = .ok e) :
    e.Everywhere (WellFormed p.options) := by
  refine readAt_induction (P := fun _ e => e.Everywhere (WellFormed p.options)) ?_ h
  rintro text e ⟨-, hread, hreduce⟩
  refine Part.everywhere_reduce hreduce fun q hq => ?_
  obtain ⟨qs, hqs, hq⟩ := List.mem_flatten.mp hq
  obtain ⟨seg, -, hseg⟩ := exists_of_mem_right hread hqs
  cases hseg with
  | plain =>
    obtain ⟨t, -, rfl⟩ := List.mem_map.mp hq
    exact sound_ofToken t
  | group hes =>
    rw [List.mem_singleton.mp hq]
    refine sound_ofGroup fun e he => ?_
    obtain ⟨_, -, h⟩ := exists_of_mem_right hes he
    exact h

end Parser

end Formula
