import Formula.Proofs.Readings
import Formula.Proofs.Reduction

/-!
# Operands side by side

Multiplying operands that stand side by side only adds formulas. Where it is not allowed, a
list of parts that comes to a tree leaves no two operands next to each other for the pass to
join, so whatever was read is read as before.
-/

namespace Formula

variable {o : Options} {product : Datum}

-- ---------------------------------------------------------------------------
-- The grammar
-- ---------------------------------------------------------------------------

namespace Part

/-- Where operands cannot stand side by side a run is a power, and a power is a run anywhere. -/
theorem Run.allow (hoff : o.implicitProduct.holds = false) (h : Run o ps e) :
    Run { o with implicitProduct := product } ps e :=
  .power ((run_iff_power hoff).mp h)

theorem Product.allow (hoff : o.implicitProduct.holds = false) (h : Product o ps e) :
    Product { o with implicitProduct := product } ps e := by
  induction h with
  | run h => exact .run (h.allow hoff)
  | times _ hr ih => exact ih.times (hr.allow hoff)
  | divided _ hr ih => exact ih.divided (hr.allow hoff)

theorem Sum.allow (hoff : o.implicitProduct.holds = false) (h : Sum o ps e) :
    Sum { o with implicitProduct := product } ps e := by
  induction h with
  | product h => exact .product (h.allow hoff)
  | plus _ hr ih => exact ih.plus (hr.allow hoff)
  | minus _ hr ih => exact ih.minus (hr.allow hoff)

theorem reduce_allow (hoff : o.implicitProduct.holds = false) (h : reduce o ps = .ok e) :
    reduce { o with implicitProduct := product } ps = .ok e := by
  obtain ⟨called, hcalls, hsum⟩ := reduce_eq_ok.mp h
  exact reduce_eq_ok.mpr ⟨called, hcalls, hsum.allow hoff⟩

end Part

-- ---------------------------------------------------------------------------
-- Texts
-- ---------------------------------------------------------------------------

namespace Parser

variable {p q : Parser}

theorem readAt_of_reduce (hvocabulary : q.vocabulary = p.vocabulary)
    (hdeep : q.options.isTooDeep = p.options.isTooDeep)
    (hreduce : ∀ ps e, Part.reduce p.options ps = .ok e → Part.reduce q.options ps = .ok e)
    (h : p.readAt shown room depth text = .ok e) : q.readAt shown room depth text = .ok e := by
  induction room generalizing depth text e with
  | zero =>
    rw [readAt] at h
    split at h <;> cases h
  | succ room ih =>
    obtain ⟨hshallow, hs, hp, hr⟩ := readAt_succ_eq_ok.mp h
    refine readAt_succ_eq_ok.mpr ⟨hdeep ▸ hshallow, .intro hs (hp.imp ?_) (hreduce _ _ hr)⟩
    rintro seg parts (_ | hes)
    · exact hvocabulary ▸ .plain
    · exact .group (hes.imp fun _ _ => ih)

end Parser

/-- A text that is read without products that lack a sign has the same tree with them, within
whatever limits. -/
theorem implicit_products_only_add (o : Options) (product : Datum) (l : Parser.Limits)
    (text : List Char) (t : Expr) (hoff : o.implicitProduct.holds = false)
    (h : parseWithin l o text = .ok t) :
    (∃ l : Parser.Limits, l.Govern) ∧
      parseWithin l { o with implicitProduct := product } text = .ok t := by
  obtain ⟨hcheck, hread⟩ := parseWithin_eq_ok.mp h
  refine ⟨Parser.exists_govern, parseWithin_eq_ok.mpr ⟨hcheck, ?_⟩⟩
  exact Parser.readAt_of_reduce (p := ⟨o, o.vocabulary⟩) rfl rfl
    (fun _ _ => Part.reduce_allow hoff) hread

/-- The call and the sign of `2 * f (x) ^ -x` stay what they are. -/
theorem implicit_products_only_add_after_calls :
    let o : Options := {
      implicitProduct := .scalar (.truth false)
      functions := .ofList [⟨.of "f" 0 1, none⟩] }
    ∃ t, parse o "2 * f (x) ^ -x" = .ok t ∧
      parse { o with implicitProduct := .scalar (.truth true) } "2 * f (x) ^ -x" = .ok t := by
  intro o
  obtain ⟨t, ht⟩ := exists_of_isOk (show (parse o "2 * f (x) ^ -x").isOk = true by decide +kernel)
  exact ⟨t, ht, (implicit_products_only_add o (.scalar (.truth true)) Parser.limits
    "2 * f (x) ^ -x".toList t rfl ht).2⟩

end Formula
