import GiPricing.Governance.Approvals
import GiPricing.Transition.Run

/-! # The lifecycle of a Model

A Model is reserved as a version of its family, fitted once by a job, reviewed and approved. An
approval supersedes the earlier approved versions of the family.
-/

namespace GiPricing.Modelling

open Failure Governance

inductive ModelStatus
  | draft
  | fitted
  | review
  | approved
  | superseded
  | archived
  deriving DecidableEq

def ModelStatus.value : ModelStatus → String
  | .draft => "draft"
  | .fitted => "fitted"
  | .review => "review"
  | .approved => "approved"
  | .superseded => "superseded"
  | .archived => "archived"

def validModelTransitions : ModelStatus → List ModelStatus
  | .draft => [.fitted, .archived]
  | .fitted => [.review, .archived]
  | .review => [.approved, .fitted]
  | .approved => [.superseded]
  | .superseded => [.archived]
  | .archived => []

structure Approximates where
  model_id : UUID
  model_slug : String
  model_version : ℕ
  deriving DecidableEq

/-- What the lifecycle reads of a specification; `rest` is all else that its hash covers. -/
structure ModelSpec where
  model_family_slug : String
  dataset_version_id : UUID
  model_type : String
  split_ref : String
  factors : Finset UUID
  approximates : Option Approximates
  /-- The central model of a quantile bound. -/
  interval_for : Option UUID
  /-- The reference of a custom objective. -/
  objective_ref : Option String
  rest : String

structure ModelRow where
  id : UUID
  workspace_id : UUID
  model_family_slug : String
  version : ℕ
  status : ModelStatus
  dataset_version_id : UUID
  spec : ModelSpec
  spec_hash : String
  parent_model_id : Option UUID
  fit_result : Option String
  diagnostics_id : Option UUID
  approval_request_id : Option UUID

/-- One version of another's family, in the same workspace. -/
def ModelRow.SameFamily (m n : ModelRow) : Prop :=
  m.workspace_id = n.workspace_id ∧ m.model_family_slug = n.model_family_slug

instance (m n : ModelRow) : Decidable (m.SameFamily n) := inferInstanceAs (Decidable (_ ∧ _))

/-- One side of another model's interval. -/
def ModelRow.IsBound (m : ModelRow) : Prop := m.spec.interval_for.isSome

structure Models where
  models : List ModelRow
  approvals : Store
  /-- The status of a dataset version, and of a custom objective. -/
  datasets : UUID → Option String
  objectives : UUID → String → Option String

inductive ModelFlag
  | datasetInvalidated
  | customObjectiveNotApproved
  deriving DecidableEq

inductive ModelRefusal
  | governance (refusal : Governance.Refusal)
  /-- A refusal of a check on the dataset, the factors, the interval pair or the evidence. -/
  | refused (code : String)
  | permissionDenied
  | notFound
  | approximationWithoutFit (slug : String) (version : ℕ)
  | approximatesGlm (slug : String) (version : ℕ)
  | approximationMismatch (fields : List String)
  | slugTooLong (slug : String)
  | immutable (slug : String) (version : ℕ)
  | invalidTransition (current target : ModelStatus)
  | evidenceIncomplete
  | objectiveUnresolved (ref : String)
  | flagged (flags : List ModelFlag)

namespace Models

variable (specHash : ModelSpec → String)

/-- A model by its reference. -/
def model? (s : Models) (workspace_id : UUID) (ref : Governance.ArtifactRef) : Option ModelRow :=
  s.models.find? fun m => m.workspace_id = workspace_id ∧ m.model_family_slug = ref.slug ∧
    m.version = ref.version

def byId (s : Models) (workspace_id model_id : UUID) : Option ModelRow :=
  s.models.find? fun m => m.id = model_id ∧ m.workspace_id = workspace_id

def requireTransition (current target : ModelStatus) : Except ModelRefusal PUnit :=
  ensure (target ∈ validModelTransitions current) (.invalidTransition current target)

def put (s : Models) (row : ModelRow) : Models :=
  { s with models := s.models.map fun m => if m.id = row.id then row else m }

/-! ## Reservation -/

/-- What `reserve_model` is called with; `checks` is what the checks on the dataset, the interval
pair and the factors answer. -/
structure Reserve where
  id : UUID
  workspace_id : UUID
  permitted : Bool
  spec : ModelSpec
  checks : Except String PUnit

/-- The fields on which a surrogate and its source disagree. -/
def mismatches (spec : ModelSpec) (a : Approximates) (source : ModelRow) : List String :=
  (if spec.dataset_version_id ≠ source.spec.dataset_version_id then ["dataset_version_id"] else []) ++
    (if spec.split_ref ≠ source.spec.split_ref then ["split_ref"] else []) ++
    (if spec.factors ≠ source.spec.factors then ["factors"] else []) ++
    (if a.model_slug ≠ source.model_family_slug then ["model_slug"] else []) ++
    (if a.model_version ≠ source.version then ["model_version"] else [])

/-- `_refuse_mismatched_approximation`: the source of a surrogate. -/
def approximationSource (s : Models) (c : Reserve) : Except ModelRefusal (Option ModelRow) :=
  match c.spec.approximates with
  | none => .ok none
  | some a => do
    let source ← require (s.byId c.workspace_id a.model_id) .notFound
    ensure source.fit_result.isSome (.approximationWithoutFit source.model_family_slug source.version)
    ensure (source.spec.model_type ≠ "glm") (.approximatesGlm source.model_family_slug source.version)
    ensure (mismatches c.spec a source = []) (.approximationMismatch (mismatches c.spec a source))
    return some source

def family (s : Models) (workspace_id : UUID) (slug : String) : List ModelRow :=
  s.models.filter fun m => m.workspace_id = workspace_id ∧ m.model_family_slug = slug

/-- A new version of a family, after the last one. -/
def newVersion (s : Models) (c : Reserve) (slug : String) : ModelRow :=
  let version := 1 + ((s.family c.workspace_id slug).map (·.version)).foldl max 0
  { id := c.id
    workspace_id := c.workspace_id
    model_family_slug := slug
    version := version
    status := .draft
    dataset_version_id := c.spec.dataset_version_id
    spec := c.spec
    spec_hash := specHash c.spec
    parent_model_id := ((s.family c.workspace_id slug).find? fun m => m.version = version - 1).map
      (·.id)
    fit_result := none
    diagnostics_id := none
    approval_request_id := none }

/-- `reserve_model`: the row, and whether a fit of it must be queued. -/
def reserve (s : Models) (c : Reserve) : Except ModelRefusal (Models × ModelRow × Bool) := do
  ensure (c.permitted = true) .permissionDenied
  let source ← approximationSource s c
  c.checks.mapError .refused
  match s.models.find? fun m => m.workspace_id = c.workspace_id ∧ m.spec_hash = specHash c.spec with
  | some existing => return (s, existing, existing.fit_result.isNone)
  | none =>
    let slug := match source with
      | some source => source.model_family_slug ++ "-approx"
      | none => c.spec.model_family_slug
    ensure (source.isSome → slug.length ≤ 64) (.slugTooLong slug)
    let row := newVersion specHash s c slug
    return ({ s with models := s.models ++ [row] }, row, true)

/-! ## Fit, review and archive -/

structure Fit where
  workspace_id : UUID
  model_id : UUID
  fit_result : String
  diagnostics_id : UUID

def recordFit (s : Models) (c : Fit) : Except ModelRefusal Models := do
  let row ← require (s.byId c.workspace_id c.model_id) .notFound
  ensure (row.fit_result = none) (.immutable row.model_family_slug row.version)
  return s.put { row with
    fit_result := some c.fit_result
    diagnostics_id := some c.diagnostics_id
    status := .fitted }

/-- What `submit_for_review` is called with; `evidence` is what the evidence other than the
diagnostics answers. -/
structure Review where
  approval_id : UUID
  workspace_id : UUID
  actor : Principal
  permitted : Bool
  model_id : UUID
  change_summary : String
  evidence : Bool

def submitForReview (s : Models) (c : Review) : Except ModelRefusal Models := do
  ensure (c.permitted = true) .permissionDenied
  let row ← require (s.byId c.workspace_id c.model_id) .notFound
  requireTransition row.status .review
  ensure (row.diagnostics_id.isSome ∧ c.evidence = true) .evidenceIncomplete
  let (approvals, request) ← (submit s.approvals ⟨c.approval_id, c.workspace_id, c.actor,
    ⟨"model", row.model_family_slug, row.version⟩, c.change_summary, none, 0⟩ (.ok ⟨⟩)).mapError
      .governance
  return { s with approvals := approvals }.put
    { row with status := .review, approval_request_id := some request.id }

structure Archive where
  workspace_id : UUID
  model_id : UUID
  permitted : Bool

def archive (s : Models) (c : Archive) : Except ModelRefusal Models := do
  ensure (c.permitted = true) .permissionDenied
  let row ← require (s.byId c.workspace_id c.model_id) .notFound
  requireTransition row.status .archived
  return s.put { row with status := .archived }

/-! ## Decisions -/

/-- `flags_for`: what stands against an approval now. -/
def flagsFor (s : Models) (row : ModelRow) : Except ModelRefusal (List ModelFlag) := do
  let dataset := if s.datasets row.dataset_version_id = some "validated" then []
    else [ModelFlag.datasetInvalidated]
  match row.spec.objective_ref with
  | none => return dataset
  | some ref =>
    let status ← require (s.objectives row.workspace_id ref) (.objectiveUnresolved ref)
    return dataset ++ if status = "approved" then [] else [.customObjectiveNotApproved]

def targetStatus : ApprovalStatus → Option ModelStatus
  | .approved => some .approved
  | .changesRequested | .rejected | .withdrawn => some .fitted
  | .draft | .review => none

/-- The rows once one of them has moved: an approval supersedes the earlier approved versions. -/
def moved (row : ModelRow) (target : ModelStatus) (m : ModelRow) : ModelRow :=
  if m.id = row.id then { m with status := target }
  else if target = .approved ∧ m.SameFamily row ∧ m.version < row.version ∧ m.status = .approved then
    { m with status := .superseded }
  else m

def applyApprovalDecision (s : Models) (request : ApprovalRequestRow) :
    Except ModelRefusal Models :=
  if request.artifact_type ≠ "model" then .ok s
  else match s.model? request.workspace_id request.artifact_ref, targetStatus request.status with
    | none, _ => .ok s
    | _, none => .ok s
    | some row, some target =>
      if row.status = target then .ok s
      else do
        if target = .approved then
          let flags ← s.flagsFor row
          ensure (flags = []) (.flagged flags)
        requireTransition row.status target
        return { s with models := s.models.map (moved row target) }

def decideAndCarry (s : Models) (d : Decision) : Except ModelRefusal Models := do
  let (approvals, row) ← (decide s.approvals d).mapError .governance
  applyApprovalDecision { s with approvals := approvals } row

def withdrawAndCarry (s : Models) (w : Withdrawal) (live : Bool) : Except ModelRefusal Models := do
  let (approvals, row) ← (withdraw s.approvals w live).mapError .governance
  applyApprovalDecision { s with approvals := approvals } row

/-- `_resolve_model` on the generic route: the version exists and is in review. -/
def resolveRef (s : Models) (c : Submission) (resolve : Except Governance.Refusal PUnit) :
    Except Governance.Refusal PUnit :=
  if c.artifact_ref.type ≠ "model" then resolve
  else do
    let row ← require (s.model? c.workspace_id c.artifact_ref) (.unresolved c.artifact_ref)
    ensure (row.status = .review) (.notInReview c.artifact_ref row.status.value)

end Models

inductive ModelEvent
  | reserve (c : Models.Reserve)
  | recordFit (c : Models.Fit)
  | submitForReview (c : Models.Review)
  | archive (c : Models.Archive)
  | decide (d : Decision)
  | withdraw (w : Withdrawal) (live : Bool)
  /-- A submission by the generic route. -/
  | submit (c : Submission) (resolve : Except Governance.Refusal PUnit)
  | setPolicy (workspace_id : UUID) (policy : ApprovalPolicy)
  | record (e : AuditEventRow)
  | setDataset (id : UUID) (status : Option String)
  | setObjective (workspace_id : UUID) (ref : String) (status : Option String)

namespace Models

variable (specHash : ModelSpec → String)

def init (policies : UUID → ApprovalPolicy) : Models :=
  ⟨[], ⟨[], [], [], policies⟩, fun _ => none, fun _ _ => none⟩

/-- A refused call is rolled back. -/
def committed (s : Models) : Except ModelRefusal Models → Models
  | .ok s' => s'
  | .error _ => s

def step (s : Models) : ModelEvent → Option Models
  | .reserve c =>
    if ∀ m ∈ s.models, m.id ≠ c.id then
      some (s.committed ((reserve specHash s c).map (·.1)))
    else none
  | .recordFit c => some (s.committed (s.recordFit c))
  | .submitForReview c => some (s.committed (s.submitForReview c))
  | .archive c => some (s.committed (s.archive c))
  | .decide d => some (s.committed (s.decideAndCarry d))
  | .withdraw w live => some (s.committed (s.withdrawAndCarry w live))
  | .submit c resolve => some (s.committed (((Governance.submit s.approvals c
      (s.resolveRef c resolve)).mapError .governance).map fun q => { s with approvals := q.1 }))
  | .setPolicy workspace_id policy => some { s with approvals := { s.approvals with
      policies := fun w => if w = workspace_id then policy else s.approvals.policies w } }
  | .record e => some { s with approvals := { s.approvals with audit := s.approvals.audit ++ [e] } }
  | .setDataset id status => some { s with
      datasets := fun d => if d = id then status else s.datasets d }
  | .setObjective workspace_id ref status => some { s with
      objectives := fun w r => if w = workspace_id ∧ r = ref then status else s.objectives w r }

end Models

end GiPricing.Modelling
