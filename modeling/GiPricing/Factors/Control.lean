import GiPricing.Factors.Resolve
import GiPricing.Numeric.Decimal

/-! # Control factors

What a bundle's compilation refuses of the models a step scores: a model that consumes a factor
with the intent `control`. The check reads the slugs that the coefficients name; a cross is named
by its own slug, whatever the intents of the factors it crosses.
-/

namespace GiPricing.Factors

open Failure Decimal

/-! ## Pinned models -/

/-- A fitted booster, which is read by the positions of its features. -/
structure Gbm (F : Type) where
  feature_order : List String
  factors : List Factor
  booster : List Value → Except ScoreFailure F

/-- A pinned model with what it was resolved with; the offset of a GLM may read another model. -/
inductive PinnedModel (F : Type)
  | glm (g : Glm F)
  | glmOver (g : Glm F) (offsetSource : PinnedModel F)
  | gbm (fit : Gbm F)

/-- The features a step maps and the context it scores in. -/
structure Quote where
  features : Row
  context : Row

section Scoring

variable {F : Type} (num : Numerics F)

def Glm.columns (g : Glm F) : List (String × String) :=
  (g.factors.filter fun f => f.source_columns.length = 1).map fun f => (f.slug, f.source)

def PinnedModel.columns : PinnedModel F → List (String × String)
  | glm g => g.columns
  | glmOver g offsetSource => offsetSource.columns ++ g.columns
  | gbm _ => []

/-- The row a GLM is scored on: the features under the columns they are renamed to. -/
def featureRow (columns : List (String × String)) (features : Row) : Except ScoreFailure Row :=
  features.entries.foldlM (fun row e =>
    let column := (columns.reverse.lookup e.1).getD e.1
    match row.get? column with
    | some v => if num.sameValue v e.2 then .ok (row.insert column e.2) else
        .error (.prediction "MODEL_CALL_FEATURE_COLLISION")
    | none => .ok (row.insert column e.2)) .empty

/-- The frame a booster is scored on: the features, or the context where nothing is mapped. -/
def Quote.cell (q : Quote) (slug : String) : Option Value :=
  if q.features.entries = [] then q.context.get? slug else q.features.get? slug

def PinnedModel.linearPredictorRow (row : Row) : PinnedModel F → Except ScoreFailure F
  | glm g | glmOver g _ => g.linearPredictorRow num row none
  | gbm _ => .error (.prediction "MODEL_OFFSET_MISSING")

/-- `_predict_model`. -/
def PinnedModel.predict (q : Quote) : PinnedModel F → Except ScoreFailure F
  | glm g => do
    let row ← featureRow num (PinnedModel.glm g).columns q.features
    g.predictRow num row none
  | glmOver g offsetSource => do
    let row ← featureRow num (PinnedModel.glmOver g offsetSource).columns q.features
    let offset ← offsetSource.linearPredictorRow num row
    g.predictRow num row (some offset)
  | gbm fit => do
    let cells ← fit.feature_order.mapM fun slug =>
      require (q.cell slug) (.prediction "MODEL_FEATURES_MISSING")
    fit.booster cells

/-! ## Peril structures -/

inductive PerilMethod (F : Type)
  | frequencySeverity (frequency severity : PinnedModel F)
  | burningCost (model : PinnedModel F)

inductive LargeLoss
  | none
  | capped (restorationLoading : ℚ)
  | flatLoading (loadingFactor : ℚ)
  | separateModel
  deriving DecidableEq

structure Peril (F : Type) where
  method : PerilMethod F
  largeLoss : LargeLoss

def PerilMethod.models : PerilMethod F → List (PinnedModel F)
  | frequencySeverity frequency severity => [frequency, severity]
  | burningCost model => [model]

def reconciliationFailed : ScoreFailure := .prediction "PERIL_STRUCTURE_RECONCILIATION_FAILED"

def predicted (q : Quote) (m : PinnedModel F) : Except ScoreFailure ℚ := do
  let value ← m.predict num q
  require (num.exact value) reconciliationFailed

def decimalPrec : ℕ := 28

def PerilMethod.cost (q : Quote) : PerilMethod F → Except ScoreFailure ℚ
  | frequencySeverity frequency severity => do
    let f ← predicted num q frequency
    let s ← predicted num q severity
    return roundSig decimalPrec (f * s)
  | burningCost model => predicted num q model

/-- The cost of a peril with its large-loss treatment. -/
def Peril.cost (p : Peril F) (q : Quote) : Except ScoreFailure ℚ := do
  let cost ← p.method.cost num q
  let restored ← match p.largeLoss with
    | .none => .ok cost
    | .capped loading | .flatLoading loading => .ok (roundSig decimalPrec (cost * loading))
    | .separateModel => .error (.prediction "LOSS_TREATMENT_UNIMPLEMENTED")
  if restored < 0 then .error reconciliationFailed else return restored

/-- What a `model_call` scores: one model, or a structure of perils. -/
inductive ModelCall (F : Type)
  | model (m : PinnedModel F)
  | perilStructure (perils : List (Peril F))

def ModelCall.models : ModelCall F → List (PinnedModel F)
  | model m => [m]
  | perilStructure perils => perils.flatMap fun p => p.method.models

/-- The unrounded value of a call: a prediction, or the sum of the costs of the perils. -/
def ModelCall.value (q : Quote) : ModelCall F → Except ScoreFailure (F ⊕ ℚ)
  | model m => (m.predict num q).map .inl
  | perilStructure perils => do
    let costs ← perils.mapM fun p => p.cost num q
    return .inr (costs.foldl (fun total cost => roundSig decimalPrec (total + cost)) 0)

end Scoring

/-! ## The check -/

inductive CompileRefusal
  | underivable
  | controlFactor (slug : String)
  deriving DecidableEq

section Check

variable {F : Type}

/-- The slugs a model is read as consuming. -/
def PinnedModel.consumed : PinnedModel F → List String
  | glm g | glmOver g _ =>
    (((g.coefficients.map Coefficient.term).filter (· ≠ intercept)).map termSlug).dedup
  | gbm fit => fit.feature_order.dedup

/-- `consumed_features`: a model that consumes nothing is refused. -/
def PinnedModel.consumedFeatures (m : PinnedModel F) : Except CompileRefusal (List String) :=
  if m.consumed = [] then .error .underivable else .ok m.consumed

/-- The factor found under a slug: the last one. -/
def bySlug (factors : List Factor) (slug : String) : Option Factor :=
  factors.reverse.find? fun f => f.slug = slug

def PinnedModel.factors : PinnedModel F → List Factor
  | glm g | glmOver g _ => g.factors
  | gbm fit => fit.factors

/-- The features of one model, without the model its offset reads. -/
def PinnedModel.refuseOwn (m : PinnedModel F) : Except CompileRefusal PUnit := do
  let features ← m.consumedFeatures
  features.forM fun feature => match bySlug m.factors feature with
    | some f => ensure (f.intent ≠ .control) (.controlFactor feature)
    | none => .ok ⟨⟩

/-- `_refuse_control_factor_features`. -/
def PinnedModel.refuseControlFactorFeatures : PinnedModel F → Except CompileRefusal PUnit
  | glm g => (PinnedModel.glm g).refuseOwn
  | glmOver g offsetSource => do
    (PinnedModel.glmOver g offsetSource).refuseOwn
    offsetSource.refuseControlFactorFeatures
  | gbm fit => (PinnedModel.gbm fit).refuseOwn

/-- `_refuse_control_factor_model_calls`, over the calls of an algorithm. -/
def refuseControlFactorModelCalls (calls : List (ModelCall F)) : Except CompileRefusal PUnit :=
  calls.forM fun call => call.models.forM PinnedModel.refuseControlFactorFeatures

end Check

end GiPricing.Factors
