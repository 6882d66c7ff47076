import GiPricing.Factors.Resolve
import GiPricing.Failure.Lists

/-! # Predictions of a boosted model

A boosted model is scored on the columns of its factors, or on a row that carries each feature under
its slug. A model call scores it the second way, on the values its feature map supplies.
-/

namespace GiPricing.Factors

open Failure

inductive Backend | xgboost | lightgbm
  deriving DecidableEq, Repr

inductive InverseLink | exp | logistic
  deriving DecidableEq, Repr

inductive MarginKind | none | logColumn | column | model
  deriving DecidableEq, Repr

structure BaseMargin where
  kind : MarginKind
  column : Option String

/-- What a fit returns beside its booster: the features in the booster's order, and the codes of the
levels of each feature that has levels. -/
structure GbmFitResult where
  model_type : Backend
  feature_order : List String
  categorical_maps : Dict (Dict ℤ)
  base_margin : BaseMargin
  inverse_link : Option InverseLink := none

/-- What the scoring of a boosted model takes from the libraries: a value as text, where it has one,
and a code as a number. -/
structure Libraries (F : Type) extends Numerics F where
  text : Value → Option String
  code : ℤ → F
  log : F → F
  notPositive : F → Bool
  link : InverseLink → F → F

abbrev Booster (F : Type) := List F → Option F → F

inductive GbmFailure
  | uncastable (failure : ScoreFailure)
  | featuresMissing (slugs : List String)
  | unseenLevel (slug : String)
  | noFeatures
  | featuresMismatch
  | offsetNotReconstructable (column : String)
  | offsetRequired (column : String)

/-- One feature of a row, and whether its column is one of levels. -/
structure Term where
  slug : String
  value : Value
  categorical : Bool

section Predict

variable {F : Type} (lib : Libraries F) (result : GbmFitResult) (booster : Booster F)

/-- `_encode` on one row: levels that have no map make one of their own, where the only level of the
row is the first. -/
def encodeTerm (t : Term) : Except GbmFailure F :=
  if t.categorical then
    match result.categorical_maps.get? t.slug with
    | some levels =>
      (require ((lib.text t.value).bind levels.get?) (.unseenLevel t.slug)).map lib.code
    | none => .ok (lib.code 0)
  else (lib.number t.value).mapError .uncastable

/-- `_offset`; a margin without a column reads the column of the name `None`. -/
def offset (frame : Row) : Except GbmFailure (Option F) :=
  let column := result.base_margin.column.getD "None"
  if result.base_margin.kind = .none then .ok none
  else do
    let value ← require (frame.get? column) (.offsetNotReconstructable column)
    let v ← (lib.number value).mapError .uncastable
    if result.base_margin.kind = .column then return some v
    else do
      ensure (lib.notPositive v = false) (.offsetRequired column)
      return some (lib.log v)

/-- What the two backends make of a vector and a margin: one adds the margin itself. -/
def finish (x : List F) (margin : Option F) : F :=
  match result.model_type with
  | .xgboost =>
    let value := booster x margin
    (result.inverse_link.map fun l => lib.link l value).getD value
  | .lightgbm =>
    let raw := booster x none
    lib.link (result.inverse_link.getD .exp) ((margin.map (lib.add raw)).getD raw)

/-- The prediction on the terms of a row. -/
def scoreTerms (frame : Row) (terms : List Term) : Except GbmFailure F := do
  let x ← terms.mapM (encodeTerm lib result)
  ensure (terms ≠ []) .noFeatures
  ensure (terms.map Term.slug = result.feature_order) .featuresMismatch
  let margin ← offset lib result frame
  return finish lib result booster x margin

def factorTerms (frame : Row) (r : Resolution) (factors : List Factor) : List Term :=
  factors.filterMap fun f => (r.terms.get? f.slug).bind fun column =>
    (r.column frame column).map fun value => ⟨f.slug, value, isLevels value⟩

/-- The features carried under their slugs, each categorical where the fit has a map for it. -/
def slugTerms (frame : Row) : List Term :=
  result.feature_order.filterMap fun slug => (frame.get? slug).map fun value =>
    ⟨slug, value, (result.categorical_maps.get? slug).isSome⟩

/-- `predict_gbm` on one row. -/
def predictGbm (frame : Row) (factors : List Factor) : Except GbmFailure F :=
  if factors ≠ [] then do
    let r ← (resolveFactorColumns lib.toNumerics frame factors).mapError .uncastable
    scoreTerms lib result booster frame (factorTerms frame r factors)
  else do
    ensure (∀ slug ∈ result.feature_order, (frame.get? slug).isSome = true) (.featuresMissing
      (result.feature_order.filter fun slug => (frame.get? slug).isNone))
    scoreTerms lib result booster frame (slugTerms result frame)

end Predict

/-! ## The call -/

inductive CallFailure
  | requiredInputAbsent (names : List String)
  | model (failure : GbmFailure)

/-- The values that a feature map takes from a context, by the slugs of the features. -/
def suppliedRow (featureMap : Dict String) (context : Context) : Row :=
  featureMap.entries.foldl (fun row e => (context e.1).elim row (row.insert e.2)) .empty

def absentNames (required : List String) (featureMap : Dict String) (context : Context) :
    List String :=
  (featureMap.entries.filter fun e => (context e.1).isNone && required.contains e.2).map Prod.fst

section Call

variable {F : Type} (lib : Libraries F) (result : GbmFitResult) (booster : Booster F)

/-- `_predict_model`: a row without features is read from the context. -/
def predictModel (row : Row) (context : Context) : Except GbmFailure F :=
  let frame := if row.entries ≠ [] then row else
    result.feature_order.foldl (fun frame slug => frame.insert slug (context.read slug)) .empty
  predictGbm lib result booster frame []

/-- The value of the handler of a model call, before it is rounded. -/
def callGbm (featureMap : Dict String) (context : Context) : Except CallFailure F := do
  let absent := absentNames result.feature_order featureMap context
  ensure (absent = []) (.requiredInputAbsent absent)
  (predictModel lib result booster (suppliedRow featureMap context) context).mapError .model

end Call

/-! ## What is refused when a bundle is compiled -/

/-- A model's required inputs: its factors' inputs, or its features without factors. -/
def requiredModelInputs (factors : List Factor) (order : List String) : List String :=
  if factors = [] then order
  else (factors.flatMap fun f =>
    if f.type = .expression then f.source_columns else [f.slug]).eraseDups

def gbmTransformedFactors (factors : List Factor) : List Factor :=
  factors.filter fun f => f.type ≠ .identity

inductive CompileFailure
  | noFeatures
  | featureMapInvalid (missing : List String)
  | transformedFactor (factors : List Factor)

def checkModelCallCoverage (result : GbmFitResult) (factors : List Factor)
    (featureMap : Dict String) : Except CompileFailure Unit := do
  let order := result.feature_order.eraseDups
  ensure (order ≠ []) .noFeatures
  let missing := (requiredModelInputs factors order).filter (· ∉ featureMap.values)
  ensure (missing = []) (.featureMapInvalid missing)

def checkModelCallGbmFactors (factors : List Factor) : Except CompileFailure Unit :=
  ensure (gbmTransformedFactors factors = []) (.transformedFactor (gbmTransformedFactors factors))

end GiPricing.Factors
