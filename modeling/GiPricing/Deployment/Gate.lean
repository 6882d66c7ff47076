import GiPricing.Deployment.Switch
import GiPricing.Governance.Approvals

/-! # The deployment gate

A target with a deployment entry in the approval policy is deployed only by an approved
Deployment Request. A rollback repeats a Deployment of its own Environment without a new one.
-/

namespace GiPricing.Deployment

open Failure Governance

abbrev ArtifactRef := Governance.ArtifactRef

/-- `str(ref)`. -/
def refText (ref : ArtifactRef) : String := ref.type ++ ":" ++ ref.slug ++ "@" ++ toString ref.version

structure EnvironmentRow where
  slug : String
  requires_prior_environment : Option String
  retired : Bool
  deriving DecidableEq

structure RatingVersionRow where
  workspace_id : UUID
  ref : ArtifactRef
  status : String
  /-- The hash of the compiled bundle. -/
  content_hash : Option String
  deriving DecidableEq

structure PromotionSkip where
  skipped_environment : String
  reason : String
  not_blank : isBlank reason = false
  deriving DecidableEq

/-- What a request pins of its target's predecessor. -/
inductive PinnedPredecessor
  | deployment (id : UUID)
  | skip (skip : PromotionSkip)
  deriving DecidableEq

/-- Both items of the evidence floor are fields, so no stored evidence lacks one. -/
structure DeploymentRequestEvidence where
  rating_version_approval : UUID
  uat_deployment : PinnedPredecessor
  deriving DecidableEq

inductive DeploymentRequestStatus
  | draft
  | review
  | approved
  | rejected
  | withdrawn
  | executed
  deriving DecidableEq

def DeploymentRequestStatus.value : DeploymentRequestStatus → String
  | .draft => "draft"
  | .review => "review"
  | .approved => "approved"
  | .rejected => "rejected"
  | .withdrawn => "withdrawn"
  | .executed => "executed"

/-- A Deployment Request, `deployment:<environment>@<version>`. -/
structure DeploymentRequestRow where
  id : UUID
  workspace_id : UUID
  slug : String
  version : ℕ
  rating_version_ref : String
  status : DeploymentRequestStatus
  approval_request_id : UUID
  evidence : DeploymentRequestEvidence
  change_summary : String
  submitted_by : UUID
  deriving DecidableEq

structure Registry where
  approvals : Store
  environments : List EnvironmentRow
  versions : List RatingVersionRow
  requests : List DeploymentRequestRow
  deployments : List DeploymentRow

inductive OrderRefusal
  | noSkip (target predecessor : String)
  | otherSkipped (target predecessor skipped : String)
  | notPermitted (target : String)
  | notListed (target predecessor : String)
  deriving DecidableEq

inductive DeployRefusal
  | governance (refusal : Governance.Refusal)
  | onlyRatingVersions (ref : ArtifactRef)
  | unknownEnvironment (slug : String)
  | permissionDenied
  | retired (slug : String)
  | unknownVersion (ref : ArtifactRef)
  | notApproved (ref : ArtifactRef) (status : String)
  | notCompiled (ref : ArtifactRef)
  | notGated (slug : String)
  | evidenceIncomplete (reason : Option OrderRefusal)
  | requestNotApplicable (slug : String)
  | requiresApproval (named : Option ArtifactRef)
  | notADeploymentRequest (ref : ArtifactRef)
  | promotionOrder (reason : OrderRefusal)
  | nothingToRollBackTo (ref : ArtifactRef)

/-- `promotion_order_refusal`. -/
def promotionOrderRefusal (entry : Option ApprovalPolicyEntry) (target : String)
    (predecessor : Option String) (predecessor_deployed : Bool) (skip : Option PromotionSkip) :
    Option OrderRefusal :=
  match predecessor with
  | none => none
  | some predecessor =>
    if predecessor_deployed then none
    else match skip with
      | none => some (.noSkip target predecessor)
      | some skip =>
        if skip.skipped_environment ≠ predecessor then
          some (.otherSkipped target predecessor skip.skipped_environment)
        else match entry with
          | none => some (.notPermitted target)
          | some entry =>
            if entry.environment ≠ some target then some (.notPermitted target)
            else if predecessor ∉ entry.skippable_predecessors then
              some (.notListed target predecessor)
            else none

namespace Registry

def environment? (s : Registry) (slug : String) : Option EnvironmentRow :=
  s.environments.find? fun e => e.slug = slug

def prior (s : Registry) (slug : String) : Option String :=
  (s.environment? slug).bind (·.requires_prior_environment)

/-- The last of some Deployments, in `(deployed_at, id)` order. -/
def lastOf (rows : List DeploymentRow) : Option DeploymentRow :=
  rows.find? fun r => rows.all fun q => q.stamp ≤ r.stamp

def authorisedEnvironment (s : Registry) (actor : Principal) (slug : String) :
    Except DeployRefusal EnvironmentRow := do
  let env ← require (s.environment? slug) (.unknownEnvironment slug)
  ensure (Permission.deploymentPromote ∈ actor.permissions) .permissionDenied
  ensure (env.retired = false) (.retired slug)
  return env

/-- The bundle hash of an approved, compiled Rating Version. -/
def approvedCompiledVersion (s : Registry) (workspace_id : UUID) (ref : ArtifactRef) :
    Except DeployRefusal String := do
  let row ← require (s.versions.find? fun v => v.workspace_id = workspace_id ∧
    v.ref.slug = ref.slug ∧ v.ref.version = ref.version) (.unknownVersion ref)
  ensure (row.status = "approved") (.notApproved ref row.status)
  let hash ← require row.content_hash (.notCompiled ref)
  ensure (hash ≠ "") (.notCompiled ref)
  return hash

def deployed (s : Registry) (workspace_id : UUID) (environment ref : String) : List DeploymentRow :=
  s.deployments.filter fun d => d.workspace_id = workspace_id ∧ d.environment = environment ∧
    d.rating_version_ref = ref

def predecessorDeployment (s : Registry) (workspace_id : UUID) (env : EnvironmentRow)
    (ref : ArtifactRef) : Option DeploymentRow :=
  env.requires_prior_environment.bind fun predecessor =>
    lastOf (s.deployed workspace_id predecessor (refText ref))

/-! ## The Deployment Request -/

/-- What `submit_request` is called with; its rows get new ids. -/
structure SubmitRequest where
  id : UUID
  approval_id : UUID
  workspace_id : UUID
  actor : Principal
  environment : String
  rating_version_ref : ArtifactRef
  change_summary : String
  skip : Option PromotionSkip

/-- The evidence a request pins. -/
def pinned (s : Registry) (c : SubmitRequest) (env : EnvironmentRow) (entry : ApprovalPolicyEntry) :
    Except DeployRefusal DeploymentRequestEvidence := do
  let approved := s.approvals.requests.filter fun r => r.workspace_id = c.workspace_id ∧
    r.artifact_ref = c.rating_version_ref ∧ r.status = .approved
  let approval := approved.find? fun r => approved.all fun q => q.id ≤ r.id
  let found := s.predecessorDeployment c.workspace_id env c.rating_version_ref
  let reason := promotionOrderRefusal (some entry) env.slug env.requires_prior_environment
    found.isSome c.skip
  ensure (reason = none) (.evidenceIncomplete reason)
  let approval ← require approval (.evidenceIncomplete none)
  let item ← require (match found, env.requires_prior_environment with
    | some d, _ => some (.deployment d.id)
    | none, some _ => c.skip.map .skip
    | none, none => none) (.evidenceIncomplete none)
  return ⟨approval.id, item⟩

def submitRequest (s : Registry) (c : SubmitRequest) : Except DeployRefusal Registry := do
  ensure (c.rating_version_ref.type = "rating_version") (.onlyRatingVersions c.rating_version_ref)
  let env ← s.authorisedEnvironment c.actor c.environment
  let _ ← s.approvedCompiledVersion c.workspace_id c.rating_version_ref
  let entry ← require ((s.approvals.policies c.workspace_id).entryFor "deployment" (some env.slug))
    (.notGated env.slug)
  let evidence ← s.pinned c env entry
  let version := ((s.requests.filter fun r => r.workspace_id = c.workspace_id ∧ r.slug = env.slug).map
    (·.version)).foldl max 0 + 1
  let request_ref : ArtifactRef := ⟨"deployment", env.slug, version⟩
  let (approvals, submitted) ← (submit s.approvals
    ⟨c.approval_id, c.workspace_id, c.actor, request_ref, c.change_summary, some env.slug, 0⟩
    (.ok ⟨⟩)).mapError .governance
  let row : DeploymentRequestRow :=
    { id := c.id
      workspace_id := c.workspace_id
      slug := env.slug
      version := version
      rating_version_ref := refText c.rating_version_ref
      status := .review
      approval_request_id := submitted.id
      evidence := evidence
      change_summary := c.change_summary
      submitted_by := c.actor.id }
  return { s with
    approvals := { approvals with audit := approvals.audit ++
      [⟨c.workspace_id, request_ref, "deployment_request.created", c.actor.id⟩] }
    requests := s.requests ++ [row] }

def request? (s : Registry) (workspace_id : UUID) (ref : ArtifactRef) :
    Option DeploymentRequestRow :=
  s.requests.find? fun r => r.workspace_id = workspace_id ∧ r.slug = ref.slug ∧
    r.version = ref.version

def setStatus (s : Registry) (id : UUID) (status : DeploymentRequestStatus) : Registry :=
  { s with requests := s.requests.map fun r => if r.id = id then { r with status := status } else r }

/-- What a decided approval request means for a Deployment Request. -/
def targetStatus : ApprovalStatus → Option DeploymentRequestStatus
  | .approved => some .approved
  | .changesRequested | .rejected => some .rejected
  | .withdrawn => some .withdrawn
  | .draft | .review => none

/-- `apply_approval_decision`: the only writer of `approved`. -/
def applyApprovalDecision (s : Registry) (row : ApprovalRequestRow) :
    Except DeployRefusal Registry :=
  if row.artifact_type ≠ "deployment" then .ok s
  else match s.request? row.workspace_id row.artifact_ref, targetStatus row.status with
    | none, _ => .ok s
    | _, none => .ok s
    | some r, some target => do
      ensure (r.status = .review) (.governance (.notInReview row.artifact_ref r.status.value))
      return s.setStatus r.id target

def decideAndCarry (s : Registry) (d : Decision) : Except DeployRefusal Registry := do
  let (approvals, row) ← (decide s.approvals d).mapError .governance
  applyApprovalDecision { s with approvals := approvals } row

/-- Withdraw a request; a rating version with a Deployment is live. -/
def withdrawAndCarry (s : Registry) (w : Withdrawal) : Except DeployRefusal Registry := do
  let live := s.approvals.requests.any fun r => r.id = w.request_id ∧
    r.workspace_id = w.workspace_id ∧ r.artifact_type = "rating_version" ∧
    s.deployments.any fun d => d.workspace_id = w.workspace_id ∧
      d.rating_version_ref = refText r.artifact_ref
  let (approvals, row) ← (withdraw s.approvals w live).mapError .governance
  applyApprovalDecision { s with approvals := approvals } row

/-! ## Deploys and rollbacks -/

/-- What `deploy` and `rollback` are called with, and what the row's defaults are. -/
structure DeployCall where
  id : UUID
  deployed_at : ℕ
  workspace_id : UUID
  actor : Principal
  environment : String
  rating_version_ref : ArtifactRef
  deployment_request_ref : Option ArtifactRef

/-- The row a call writes. -/
def DeployCall.row (c : DeployCall) (env : EnvironmentRow) (bundle_hash : String)
    (request : Option UUID) : DeploymentRow where
  id := c.id
  workspace_id := c.workspace_id
  environment := env.slug
  rating_version_ref := refText c.rating_version_ref
  bundle_hash := bundle_hash
  deployed_at := c.deployed_at
  deployment_request_id := request

/-- `_executable_request`: the approved request for this version and this Environment. -/
def executableRequest (s : Registry) (c : DeployCall) (env : EnvironmentRow) :
    Except DeployRefusal DeploymentRequestRow := do
  let named ← require c.deployment_request_ref (.requiresApproval none)
  ensure (named.type = "deployment") (.notADeploymentRequest named)
  let row ← require (s.request? c.workspace_id named) (.requiresApproval named)
  ensure (row.slug = env.slug ∧ row.rating_version_ref = refText c.rating_version_ref ∧
    row.status = .approved) (.requiresApproval named)
  return row

def ordered (reason : Option OrderRefusal) : Except DeployRefusal PUnit :=
  match reason with
  | none => .ok ⟨⟩
  | some reason => .error (.promotionOrder reason)

def deploy (s : Registry) (c : DeployCall) : Except DeployRefusal Registry := do
  ensure (c.rating_version_ref.type = "rating_version") (.onlyRatingVersions c.rating_version_ref)
  let env ← s.authorisedEnvironment c.actor c.environment
  let hash ← s.approvedCompiledVersion c.workspace_id c.rating_version_ref
  let found := s.predecessorDeployment c.workspace_id env c.rating_version_ref
  match (s.approvals.policies c.workspace_id).entryFor "deployment" (some env.slug) with
  | none =>
    ensure (c.deployment_request_ref = none) (.requestNotApplicable env.slug)
    ordered (promotionOrderRefusal none env.slug env.requires_prior_environment found.isSome none)
    return { s with deployments := c.row env hash none :: s.deployments }
  | some entry =>
    let request ← s.executableRequest c env
    ordered (match request.evidence.uat_deployment with
      | .deployment _ =>
        promotionOrderRefusal (some entry) env.slug env.requires_prior_environment true none
      | .skip skip =>
        promotionOrderRefusal (some entry) env.slug env.requires_prior_environment false skip)
    -- The conditional update: the row is still approved.
    ensure (∃ r ∈ s.requests, r.id = request.id ∧ r.status = .approved)
      (.requiresApproval c.deployment_request_ref)
    return { s.setStatus request.id .executed with
      deployments := c.row env hash (some request.id) :: s.deployments }

def rollback (s : Registry) (c : DeployCall) : Except DeployRefusal Registry := do
  ensure (c.rating_version_ref.type = "rating_version") (.onlyRatingVersions c.rating_version_ref)
  let env ← s.authorisedEnvironment c.actor c.environment
  let target ← require (lastOf (s.deployed c.workspace_id env.slug (refText c.rating_version_ref)))
    (.nothingToRollBackTo c.rating_version_ref)
  return { s with deployments := c.row env target.bundle_hash none :: s.deployments }

end Registry

/-! ## The system -/

inductive GateEvent
  | createEnvironment (slug : String) (requires_prior_environment : Option String)
  | retireEnvironment (slug : String)
  | setPolicy (workspace_id : UUID) (policy : ApprovalPolicy)
  /-- The rating module writes its versions. -/
  | writeVersions (versions : List RatingVersionRow)
  | record (e : AuditEventRow)
  /-- A submission of any other artifact, or of a Deployment Request by the generic route. -/
  | submit (c : Submission) (resolve : Except Governance.Refusal PUnit)
  | submitRequest (c : Registry.SubmitRequest)
  | decide (d : Decision)
  | withdraw (w : Withdrawal)
  | deploy (c : Registry.DeployCall)
  | rollback (c : Registry.DeployCall)

namespace Registry

/-- A refused call is rolled back. -/
def committed (s : Registry) : Except DeployRefusal Registry → Registry
  | .ok s' => s'
  | .error _ => s

/-- `resolve_artifact_ref` of a Deployment Request; another type is its own module's. -/
def resolveRef (s : Registry) (c : Submission) (resolve : Except Governance.Refusal PUnit) :
    Except Governance.Refusal PUnit :=
  if c.artifact_ref.type ≠ "deployment" then resolve
  else do
    let row ← require (s.request? c.workspace_id c.artifact_ref) (.unresolved c.artifact_ref)
    ensure (row.status = .review) (.notInReview c.artifact_ref row.status.value)

def init (policies : UUID → ApprovalPolicy) : Registry := ⟨⟨[], [], [], policies⟩, [], [], [], []⟩

def step (s : Registry) : GateEvent → Option Registry
  | .createEnvironment slug prior =>
    if (s.environment? slug).isNone ∧
        ∀ p ∈ prior, ∃ e ∈ s.environments, e.slug = p ∧ e.retired = false then
      some { s with environments := s.environments ++ [⟨slug, prior, false⟩] }
    else none
  | .retireEnvironment slug =>
    if ∀ d ∈ s.deployments, d.environment ≠ slug then
      some { s with environments := s.environments.map fun e =>
        if e.slug = slug then { e with retired := true } else e }
    else none
  | .setPolicy workspace_id policy => some { s with approvals := { s.approvals with
      policies := fun w => if w = workspace_id then policy else s.approvals.policies w } }
  | .writeVersions versions => some { s with versions := versions }
  | .record e => some { s with approvals := { s.approvals with audit := s.approvals.audit ++ [e] } }
  | .submit c resolve => some (s.committed (((Governance.submit s.approvals c
      (s.resolveRef c resolve)).mapError .governance).map fun q => { s with approvals := q.1 }))
  | .submitRequest c =>
    if ∀ r ∈ s.requests, r.id ≠ c.id then some (s.committed (s.submitRequest c)) else none
  | .decide d => some (s.committed (s.decideAndCarry d))
  | .withdraw w => some (s.committed (s.withdrawAndCarry w))
  | .deploy c =>
    if ∀ d ∈ s.deployments, d.id ≠ c.id then some (s.committed (s.deploy c)) else none
  | .rollback c =>
    if ∀ d ∈ s.deployments, d.id ≠ c.id then some (s.committed (s.rollback c)) else none

end Registry

end GiPricing.Deployment
