import Formula.Proofs.Alike
import Formula.Proofs.Everywhere
import Formula.Proofs.Faults

/-!
# Reading does not look at bodies

Only the signatures of declared functions matter while a text is read. Under options whose
definitions have lost their bodies a text has the same tree without bodies, or the same error,
with the trees that it shows without bodies.
-/

namespace Formula

-- ---------------------------------------------------------------------------
-- Trees and tables
-- ---------------------------------------------------------------------------

namespace Expr

theorem isNumeric_erase (e : Expr) : e.erase.isNumeric = e.isNumeric := by
  cases e <;> rfl

mutual
theorem height_erase : (e : Expr) → e.erase.height = e.height
  | .missing | .const _ | .var _ => rfl
  | .unary _ e => congrArg (· + 1) (height_erase e)
  | .binary _ l r | .compare _ l r => by
    simp only [erase, height, height_erase l, height_erase r]
  | .call _ es => congrArg (· + 1) (heightAll_erase es)
theorem heightAll_erase : (es : List Expr) → heightAll (eraseAll es) = heightAll es
  | [] => rfl
  | e :: es => by rw [eraseAll, heightAll, heightAll, height_erase e, heightAll_erase es]
end

theorem isEuler_erase (e : Expr) : e.erase.isEuler = e.isEuler := by
  cases e with
  | unary op e => cases e <;> cases op <;> rfl
  | _ => rfl

end Expr

@[simp] theorem Definition.signature_erase (d : Definition) : d.erase.signature = d.signature := rfl

namespace FunctionTable

theorem distinct_map_erase {ds : List Definition} (h : Distinct ds) :
    Distinct (ds.map Definition.erase) :=
  List.pairwise_map.mpr h

def erase (t : FunctionTable) : FunctionTable :=
  ⟨t.definitions.map Definition.erase, distinct_map_erase t.distinct⟩

@[simp] theorem signatures_erase (t : FunctionTable) : t.erase.signatures = t.signatures := by
  simp [signatures, erase]

theorem textNames_erase (t : FunctionTable) : t.erase.textNames = t.textNames := by
  rw [textNames, names, signatures_erase]
  rfl

theorem byName?_erase (t : FunctionTable) (name : Datum) :
    t.erase.byName? name = (t.byName? name).map Definition.erase := by
  simp only [byName?, erase, List.find?_map]
  rfl

end FunctionTable

-- ---------------------------------------------------------------------------
-- Options
-- ---------------------------------------------------------------------------

/-- The second options are the first ones without bodies. A switch counts by whether it is on. -/
structure Options.Erased (o o' : Options) : Prop where
  minusIsNegative : o.minusIsNegative.holds = o'.minusIsNegative.holds
  implicitProduct : o.implicitProduct.holds = o'.implicitProduct.holds
  variableNames : o'.variableNames = o.variableNames
  functions : o'.functions = o.functions.erase
  maxDepth : o'.maxDepth = o.maxDepth

variable {o o' : Options}

theorem alike_of_erased (h : o.Erased o') :
    Alike (fun e e' => e.erase = e') (fun err err' => err.mapTrees Expr.erase = err') o o' where
  isNumeric := by
    rintro e _ rfl
    exact e.isNumeric_erase.symm
  isEuler := by
    rintro e _ rfl
    exact e.isEuler_erase.symm
  const _ _ := rfl
  var name := rfl
  unary := by
    rintro e _ op rfl
    rfl
  binary := by
    rintro op l _ r _ - rfl rfl
    rfl
  difference := by
    rintro l _ r _ rfl rfl
    rw [Part.difference, Part.difference, h.minusIsNegative]
    split <;> rfl
  named name := by rw [h.variableNames]
  called name _ := by
    rw [h.functions, FunctionTable.byName?_erase]
    cases o.functions.byName? (.text name) with
    | none => exact .none
    | some d =>
      refine .some fun es es' hes => ?_
      rw [← List.forall₂_map_left_iff, List.forall₂_eq_eq_eq] at hes
      subst hes
      simp only [Part.Callee.call, Option.getD_some, List.length_map, Definition.signature_erase]
      split
      · refine .ok ?_
        rw [Expr.erase, Expr.eraseAll_eq]
      · exact .error rfl
      · exact .error rfl
  product := h.implicitProduct
  argumentCount name := rfl
  missingOperand op := rfl
  notOperand hp := by rw [ParseError.mapTrees, Part.mapTrees_of_alike hp]
  leftover hps := by rw [ParseError.mapTrees, Part.map_mapTrees_of_alike hps]

theorem readAlike_of_erased (h : o.Erased o') :
    ReadAlike (fun e e' => e.erase = e') (fun err err' => err.mapTrees Expr.erase = err') o o' where
  toAlike := alike_of_erased h
  vocabulary := by
    rw [Options.vocabulary, Options.vocabulary, h.variableNames, h.functions,
      FunctionTable.textNames_erase]
  isTooDeep := by
    funext depth
    rw [Options.isTooDeep, Options.isTooDeep, h.maxDepth]
  tooDeep depth := by rw [h.maxDepth]; rfl
  exhausted := rfl
  bracket _ := rfl

theorem ParseError.OfDeclarations.mapTrees_eq {err : ParseError} (h : err.OfDeclarations)
    (f : Expr → Expr) : err.mapTrees f = err := by
  cases h <;> rfl

theorem parseWithin_of_erased (h : o.Erased o') (l : Parser.Limits) (text : List Char) :
    Parallel (fun err err' => err.mapTrees Expr.erase = err') (fun t t' => t.erase = t')
      (parseWithin l o text) (parseWithin l o' text) := by
  refine (readAlike_of_erased h).parseWithin ?_ ?_ text
  · rintro depth - err _ rfl
    exact (err.shownWithin_mapTrees Expr.height_erase (l.shown depth)).symm
  rw [h.variableNames, h.functions, FunctionTable.signatures_erase]
  cases hcheck : checkDeclarations o.variableNames o.functions.signatures with
  | ok => exact .ok rfl
  | error err => exact .error ((ofDeclarations_of_checkDeclarations hcheck).mapTrees_eq _)

end Formula
