import GiPricing.Modelling.Versions

/-! # Quantile bounds

A bound is a version of the family of the model that it bounds. Its reservation is checked against
that model, its approval supersedes earlier versions of the family as any other does, and the
prediction of the central model quotes the pair.
-/

namespace GiPricing.Modelling

open Failure Governance Transition

/-! ## Reservation -/

/-- What the prediction of a bound needs of a Custom Objective. -/
structure ObjectiveParams where
  template : String
  alpha : Option ℚ
  deriving DecidableEq

inductive IntervalRefusal
  | notFound
  | objectiveNotFound (ref : String)
  | mismatched (fields : List String)
  | builtin
  | notQuantile (template : String)
  | alphasDisagree (declared : ℚ) (objective : Option ℚ)
  | sideTaken (lower : Bool) (version : ℕ)

def IntervalRefusal.code : IntervalRefusal → String
  | .notFound | .objectiveNotFound _ => "NOT_FOUND"
  | .mismatched _ | .builtin | .notQuantile _ | .alphasDisagree _ _ | .sideTaken _ _ =>
    "MODEL_INTERVAL_PAIR_INVALID"

section Model

/- The alpha that a specification's `interval_for` declares, and the objectives of a workspace. -/
variable (specHash : ModelSpec → String) (alpha : ModelSpec → ℚ)
  (objectives : UUID → String → Option ObjectiveParams)

/-- What the types say: a bound is a GBM at an alpha other than the median, a surrogate is a GLM. -/
def WellTyped (spec : ModelSpec) : Prop :=
  (spec.interval_for.isSome → spec.model_type = "gbm" ∧ 0 < alpha spec ∧ alpha spec < 1 ∧
    alpha spec ≠ 1 / 2) ∧ (spec.approximates.isSome → spec.model_type = "glm")

instance (spec : ModelSpec) : Decidable (WellTyped alpha spec) :=
  inferInstanceAs (Decidable (_ ∧ _))

/-- A bound is the lower or the upper one. -/
def IsLower (spec : ModelSpec) : Prop := alpha spec < 1 / 2

instance (spec : ModelSpec) : Decidable (IsLower alpha spec) :=
  inferInstanceAs (Decidable (_ < _))

namespace Models

/-- `load_interval_models`: every bound of a model, lower first. -/
def loadIntervalModels (s : Models) (workspace_id central_model_id : UUID) : List ModelRow :=
  (s.models.filter fun m => m.workspace_id = workspace_id ∧
    m.spec.interval_for = some central_model_id).insertionSort
      fun m n => alpha m.spec ≤ alpha n.spec

def intervalMismatches (spec central : ModelSpec) : List String :=
  (if spec.model_family_slug ≠ central.model_family_slug then ["model_family_slug"] else []) ++
    (if spec.dataset_version_id ≠ central.dataset_version_id then ["dataset_version_id"] else []) ++
    (if spec.split_ref ≠ central.split_ref then ["split_ref"] else []) ++
    (if spec.factors ≠ central.factors then ["factors"] else [])

/-- The loss of a bound is the pinball loss, at the alpha that the bound claims. -/
def refuseABoundThatIsNotAQuantileFit (workspace_id : UUID) (spec : ModelSpec) :
    Except IntervalRefusal PUnit := do
  let ref ← require spec.objective_ref .builtin
  let objective ← require (objectives workspace_id ref) (.objectiveNotFound ref)
  ensure (objective.template = "quantile") (.notQuantile objective.template)
  ensure (objective.alpha = some (alpha spec)) (.alphasDisagree (alpha spec) objective.alpha)

/-- `_refuse_mismatched_interval_model`. -/
def refuseMismatchedIntervalModel (s : Models) (workspace_id : UUID) (spec : ModelSpec) :
    Except IntervalRefusal PUnit :=
  match spec.interval_for with
  | none => .ok ⟨⟩
  | some central_id => do
    let central ← require (s.byId workspace_id central_id) .notFound
    ensure (intervalMismatches spec central.spec = [])
      (.mismatched (intervalMismatches spec central.spec))
    refuseABoundThatIsNotAQuantileFit alpha objectives workspace_id spec
    let taken := (s.loadIntervalModels alpha workspace_id central.id).find? fun existing =>
      IsLower alpha existing.spec ↔ IsLower alpha spec
    match taken with
    | some existing => .error (.sideTaken (IsLower alpha spec) existing.version)
    | none => return ⟨⟩

/-- A call, where a reservation is checked against the model that it bounds. -/
def stepBounded (s : Models) : ModelEvent → Option Models
  | .reserve c =>
    if WellTyped alpha c.spec then
      s.step specHash (.reserve { c with checks := do
        (s.refuseMismatchedIntervalModel alpha objectives c.workspace_id c.spec).mapError (·.code)
        c.checks })
    else none
  | e => s.step specHash e

end Models

/-! ## Prediction -/

inductive UnavailableReason
  | noIntervalModelsFitted
  | intervalModelsNotApproved
  | intervalModelsStale
  deriving DecidableEq

structure IntervalModels where
  lower_model_id : UUID
  upper_model_id : UUID
  lower_alpha : ℚ
  upper_alpha : ℚ
  deriving DecidableEq

inductive Uncertainty
  | unavailable (reason : UnavailableReason)
  | quantilePairInterval (level : ℚ) (interval_models : IntervalModels)
  deriving DecidableEq

inductive PredictRefusal
  | notFound
  | notFitted
  | unscoreable (code : String)
  | crossing (rows : ℕ)
  deriving DecidableEq

structure Predicted (height : ℕ) where
  expected : Fin height → ℚ
  lower : Option (Fin height → ℚ)
  upper : Option (Fin height → ℚ)
  uncertainty : Uncertainty

variable {height : ℕ} (score : ModelRow → Except String (Fin height → ℚ))

def scoreableModelStatuses : List ModelStatus := [.fitted, .review, .approved, .superseded]

def rowsCrossing (lower upper : Fin height → ℚ) : ℕ :=
  (Finset.univ.filter fun i => upper i < lower i).card

namespace Models

/-- `_score_gbm`: the arms are in order. -/
def scoreGbm (s : Models) (model : ModelRow) : Except PredictRefusal (Predicted height) := do
  let expected ← (score model).mapError .unscoreable
  let bounds := (s.loadIntervalModels alpha model.workspace_id model.id).filter
    (·.fit_result.isSome)
  let absent (reason : UnavailableReason) : Except PredictRefusal (Predicted height) :=
    .ok ⟨expected, none, none, .unavailable reason⟩
  match bounds.filter (IsLower alpha ·.spec), bounds.filter (¬ IsLower alpha ·.spec) with
  | [lower], [upper] =>
    if model.status = .superseded then absent .intervalModelsStale
    else if model.status = .approved ∧ (lower.status ≠ .approved ∨ upper.status ≠ .approved) then
      absent .intervalModelsNotApproved
    else do
      let low ← (score lower).mapError .unscoreable
      let high ← (score upper).mapError .unscoreable
      ensure (rowsCrossing low high = 0) (.crossing (rowsCrossing low high))
      return ⟨expected, some low, some high,
        .quantilePairInterval (alpha upper.spec - alpha lower.spec)
          ⟨lower.id, upper.id, alpha lower.spec, alpha upper.spec⟩⟩
  | _, _ => absent .noIntervalModelsFitted

/-- The prediction of a GBM. -/
def predict (s : Models) (workspace_id model_id : UUID) :
    Except PredictRefusal (Predicted height) := do
  let model ← require (s.byId workspace_id model_id) .notFound
  ensure (model.status ∈ scoreableModelStatuses ∧ model.fit_result.isSome) .notFitted
  s.scoreGbm alpha score model

end Models

end Model

end GiPricing.Modelling
