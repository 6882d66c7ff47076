import GiPricing.Governance.Approvals
import GiPricing.Transition.Run
import Mathlib.Data.List.MinMax

/-! # The certification of a Custom Objective

A certification is a Job, so its certificate can arrive after the objective was submitted or
decided on. The status, the certificate the objective names and the latest certificate are three
facts, which different functions write.
-/

namespace GiPricing.Modelling

open Failure Governance

inductive ObjectiveStatus
  | draft
  | certified
  | review
  | approved
  | deprecated
  deriving DecidableEq

def ObjectiveStatus.value : ObjectiveStatus → String
  | .draft => "draft"
  | .certified => "certified"
  | .review => "review"
  | .approved => "approved"
  | .deprecated => "deprecated"

def validObjectiveTransitions : ObjectiveStatus → List ObjectiveStatus
  | .draft => [.certified, .deprecated]
  | .certified => [.review, .draft, .deprecated]
  | .review => [.approved, .certified]
  | .approved => [.deprecated]
  | .deprecated => []

inductive ObjectiveKind
  | template
  | expression
  deriving DecidableEq

/-! ## Certificates -/

inductive CheckStatus
  | pass
  | warn
  | violated
  | failed
  deriving DecidableEq

inductive CertificateOutcome
  | certified
  | certifiedWithFindings
  | failed
  deriving DecidableEq

structure CertificateCheck where
  name : String
  status : CheckStatus
  deriving DecidableEq

/-- The verdict that checks imply. -/
def outcomeOf (checks : List CertificateCheck) : CertificateOutcome :=
  if ∃ c ∈ checks, c.status = .failed then .failed
  else if ∃ c ∈ checks, c.status = .warn ∨ c.status = .violated then .certifiedWithFindings
  else .certified

structure CertificateResult where
  checks : List CertificateCheck
  overall : CertificateOutcome
  implied : overall = outcomeOf checks

structure ObjectiveCertificateRow where
  id : UUID
  workspace_id : UUID
  custom_objective_id : UUID
  objective_version : ℕ
  certified_at : ℕ
  job_id : Option UUID
  result : CertificateResult

/-- A `violated` convexity check, which a submission must declare to one more Approver. -/
def ObjectiveCertificateRow.NonConvex (c : ObjectiveCertificateRow) : Prop :=
  ∃ check ∈ c.result.checks, check.name = "convexity" ∧ check.status = .violated

instance (c : ObjectiveCertificateRow) : Decidable c.NonConvex :=
  inferInstanceAs (Decidable (∃ check ∈ c.result.checks, _))

/-! ## The tables -/

structure CustomObjectiveRow where
  id : UUID
  workspace_id : UUID
  slug : String
  version : ℕ
  kind : ObjectiveKind
  loss : Option String
  derived : Option String
  status : ObjectiveStatus
  certificate_id : Option UUID
  approval_request_id : Option UUID

def CustomObjectiveRow.ref (row : CustomObjectiveRow) : Governance.ArtifactRef :=
  ⟨"custom_objective", row.slug, row.version⟩

structure CertifyJob where
  id : UUID
  workspace_id : UUID
  objective_id : UUID
  deriving DecidableEq

/-- What an audit event of a certificate says: the status before and after, and the certificate. -/
structure CertificateEvent where
  action : String
  before : ObjectiveStatus
  after : ObjectiveStatus
  certificate_id : UUID
  overall : CertificateOutcome

structure Objectives where
  objectives : List CustomObjectiveRow
  certificates : List ObjectiveCertificateRow
  jobs : List CertifyJob
  events : List CertificateEvent
  approvals : Store
  /-- The time of the transaction that comes next. -/
  clock : ℕ

inductive ObjectiveRefusal
  | governance (refusal : Governance.Refusal)
  | permissionDenied
  | notFound (objective_id : UUID)
  /-- A refusal of the contract or of the grammar. -/
  | invalid (code : String)
  | notAnExpression (ref : Governance.ArtifactRef)
  | notDerivable (ref : Governance.ArtifactRef) (status : ObjectiveStatus)
  | notCertifiable (ref : Governance.ArtifactRef) (status : ObjectiveStatus)
  | notDerived (ref : Governance.ArtifactRef)
  | notCertified (ref : Governance.ArtifactRef)
  | evidenceIncomplete (missing : List String)
  | certificateMissing (ref : Governance.ArtifactRef) (certificate_id : Option UUID)
  | invalidTransition (current target : ObjectiveStatus)
  /-- The table's check: a status past `draft` needs a certificate. -/
  | checkViolation (status : ObjectiveStatus)

namespace Objectives

/-- `_get_or_404`. -/
def getOr404 (s : Objectives) (workspace_id objective_id : UUID) :
    Except ObjectiveRefusal CustomObjectiveRow :=
  require (s.objectives.find? fun o => o.id = objective_id ∧ o.workspace_id = workspace_id)
    (.notFound objective_id)

def put (s : Objectives) (row : CustomObjectiveRow) : Objectives :=
  { s with objectives := s.objectives.map fun o => if o.id = row.id then row else o }

/-- Write one row back, under `certified_objective_has_a_certificate`. -/
def flush (s : Objectives) (row : CustomObjectiveRow) : Except ObjectiveRefusal Objectives := do
  ensure (row.status = .draft ∨ row.status = .deprecated ∨ row.certificate_id.isSome = true)
    (.checkViolation row.status)
  return s.put row

/-- The chain's event, which the separation of duties reads. -/
def record (s : Objectives) (row : CustomObjectiveRow) (action : String) (actor : UUID) :
    Objectives :=
  { s with approvals := { s.approvals with
      audit := s.approvals.audit ++ [⟨row.workspace_id, row.ref, action, actor⟩] } }

/-! ## Authoring -/

/-- What `create_objective` is called with; `checks` is what the contract and the grammar answer. -/
structure Create where
  id : UUID
  workspace_id : UUID
  actor : Principal
  permitted : Bool
  slug : String
  kind : ObjectiveKind
  loss : Option String
  checks : Except String PUnit

def createObjective (s : Objectives) (c : Create) : Except ObjectiveRefusal Objectives := do
  ensure (c.permitted = true) .permissionDenied
  let versions := (s.objectives.filter fun o =>
    o.workspace_id = c.workspace_id ∧ o.slug = c.slug).map (·.version)
  c.checks.mapError .invalid
  let row : CustomObjectiveRow :=
    { id := c.id
      workspace_id := c.workspace_id
      slug := c.slug
      version := versions.foldl max 0 + 1
      kind := c.kind
      loss := c.loss
      derived := none
      status := .draft
      certificate_id := none
      approval_request_id := none }
  return { s with objectives := s.objectives ++ [row] }.record row "custom_objective.created"
    c.actor.id

/-- What a route about one objective is called with. -/
structure Call where
  workspace_id : UUID
  actor : Principal
  permitted : Bool
  objective_id : UUID

variable (derive : String → Except String String)

def deriveObjective (s : Objectives) (c : Call) : Except ObjectiveRefusal Objectives := do
  let row ← s.getOr404 c.workspace_id c.objective_id
  ensure (row.kind = .expression) (.notAnExpression row.ref)
  let loss ← require row.loss (.notAnExpression row.ref)
  ensure (row.status = .draft ∧ row.derived = none) (.notDerivable row.ref row.status)
  let block ← (derive loss).mapError .invalid
  let s ← s.flush { row with derived := some block }
  return s.record row "custom_objective.derived" c.actor.id

/-! ## Certification -/

/-- `certifiable_or_refuse`: whether a certification may be queued. -/
def certifiableOrRefuse (s : Objectives) (c : Call) :
    Except ObjectiveRefusal CustomObjectiveRow := do
  ensure (c.permitted = true) .permissionDenied
  let row ← s.getOr404 c.workspace_id c.objective_id
  ensure (row.status = .draft ∨ row.status = .certified) (.notCertifiable row.ref row.status)
  ensure (¬ (row.kind = .expression ∧ row.derived = none)) (.notDerived row.ref)
  return row

/-- The route: a certifiable objective gets a Job. -/
def certify (s : Objectives) (c : Call) (job_id : UUID) : Except ObjectiveRefusal Objectives := do
  let row ← s.certifiableOrRefuse c
  return { s with jobs := s.jobs ++ [⟨job_id, c.workspace_id, row.id⟩] }

/-- The certificate a Job stores. -/
def certificateOf (s : Objectives) (job : CertifyJob) (row : CustomObjectiveRow)
    (certificate_id : UUID) (result : CertificateResult) : ObjectiveCertificateRow :=
  { id := certificate_id
    workspace_id := job.workspace_id
    custom_objective_id := row.id
    objective_version := row.version
    certified_at := s.clock
    job_id := some job.id
    result := result }

/-- The row after a certificate: past `certified` it moves nothing. -/
def certifiedRow (row : CustomObjectiveRow) (certificate : ObjectiveCertificateRow) :
    CustomObjectiveRow :=
  if row.status = .draft ∨ row.status = .certified then
    if certificate.result.overall = .failed then
      { row with status := .draft, certificate_id := none }
    else { row with status := .certified, certificate_id := some certificate.id }
  else row

def certificateAction (row : CustomObjectiveRow) (certificate : ObjectiveCertificateRow) : String :=
  if row.status = .draft ∨ row.status = .certified then
    if certificate.result.overall = .failed then "custom_objective.certification_failed"
    else "custom_objective.certified"
  else "custom_objective.certificate_recorded"

def recordCertificate (s : Objectives) (job : CertifyJob) (actor certificate_id : UUID)
    (result : CertificateResult) : Except ObjectiveRefusal Objectives := do
  let row ← s.getOr404 job.workspace_id job.objective_id
  let certificate := s.certificateOf job row certificate_id result
  let action := certificateAction row certificate
  let event : CertificateEvent :=
    { action := action
      before := row.status
      after := (certifiedRow row certificate).status
      certificate_id := certificate.id
      overall := result.overall }
  let s ← ({ s with
    certificates := s.certificates ++ [certificate]
    events := s.events ++ [event]
    clock := s.clock + 1 } : Objectives).flush (certifiedRow row certificate)
  return s.record row action actor

/-! ## Review -/

/-- The certificates of an objective. -/
def certificatesOf (s : Objectives) (workspace_id objective_id : UUID) :
    List ObjectiveCertificateRow :=
  s.certificates.filter fun c =>
    c.workspace_id = workspace_id ∧ c.custom_objective_id = objective_id

def latest (s : Objectives) (workspace_id objective_id : UUID) : Option ObjectiveCertificateRow :=
  (s.certificatesOf workspace_id objective_id).argmax (·.certified_at)

/-- What `submit_for_review` is called with; `evidence` is the kinds that the policy demands. -/
structure Review where
  approval_id : UUID
  call : Call
  change_summary : String
  evidence : List String

/-- `_require_evidence`: only a certificate can be verified. -/
def requireEvidence (row : CustomObjectiveRow) (evidence : List String) :
    Except ObjectiveRefusal PUnit :=
  let missing := evidence.filter fun kind =>
    ¬ (kind = "objective_certificate" ∧ row.certificate_id.isSome = true)
  ensure (missing = []) (.evidenceIncomplete missing)

def submitForReview (s : Objectives) (c : Review) :
    Except ObjectiveRefusal (Objectives × ApprovalRequestRow) := do
  ensure (c.call.permitted = true) .permissionDenied
  let row ← s.getOr404 c.call.workspace_id c.call.objective_id
  ensure (row.status ≠ .draft) (.notCertified row.ref)
  ensure (.review ∈ validObjectiveTransitions row.status) (.invalidTransition row.status .review)
  requireEvidence row c.evidence
  let pointed ← require (s.certificates.find? fun d => some d.id = row.certificate_id)
    (.certificateMissing row.ref row.certificate_id)
  ensure (pointed.workspace_id = c.call.workspace_id ∧ pointed.custom_objective_id = row.id)
    (.certificateMissing row.ref row.certificate_id)
  let nonConvex := ∃ d ∈ s.latest c.call.workspace_id c.call.objective_id, d.NonConvex
  let (approvals, request) ← (submit s.approvals ⟨c.approval_id, c.call.workspace_id, c.call.actor,
    row.ref, c.change_summary, none, if nonConvex then 1 else 0⟩ (.ok ⟨⟩)).mapError .governance
  let s ← ({ s with approvals := approvals } : Objectives).flush
    { row with status := .review, approval_request_id := some request.id }
  return (s.record row "custom_objective.submitted" c.call.actor.id, request)

/-! ## Decisions -/

/-- `_target_status`: a review decision does not withdraw a certificate. -/
def targetStatus : ApprovalStatus → Option ObjectiveStatus
  | .approved => some .approved
  | .changesRequested | .rejected | .withdrawn => some .certified
  | .draft | .review => none

/-- An objective by its reference. -/
def objective? (s : Objectives) (workspace_id : UUID) (ref : Governance.ArtifactRef) :
    Option CustomObjectiveRow :=
  s.objectives.find? fun o => o.workspace_id = workspace_id ∧ o.slug = ref.slug ∧
    o.version = ref.version

def applyApprovalDecision (s : Objectives) (actor : UUID) (request : ApprovalRequestRow) :
    Except ObjectiveRefusal Objectives :=
  if request.artifact_type ≠ "custom_objective" then .ok s
  else match s.objective? request.workspace_id request.artifact_ref,
      targetStatus request.status with
    | none, _ => .ok s
    | _, none => .ok s
    | some row, some target =>
      if row.status = target then .ok s
      else do
        ensure (target ∈ validObjectiveTransitions row.status)
          (.invalidTransition row.status target)
        let s ← s.flush { row with status := target }
        return s.record row ("custom_objective." ++ target.value) actor

def decideAndCarry (s : Objectives) (d : Decision) : Except ObjectiveRefusal Objectives := do
  let (approvals, request) ← (decide s.approvals d).mapError .governance
  applyApprovalDecision { s with approvals := approvals } d.approver.id request

def withdrawAndCarry (s : Objectives) (w : Withdrawal) (live : Bool) :
    Except ObjectiveRefusal Objectives := do
  let (approvals, request) ← (withdraw s.approvals w live).mapError .governance
  applyApprovalDecision { s with approvals := approvals } w.actor.id request

/-- `_resolve_custom_objective` on the generic route: the version exists and is in review. -/
def resolveRef (s : Objectives) (c : Submission) (resolve : Except Governance.Refusal PUnit) :
    Except Governance.Refusal PUnit :=
  if c.artifact_ref.type ≠ "custom_objective" then resolve
  else do
    let row ← require (s.objective? c.workspace_id c.artifact_ref) (.unresolved c.artifact_ref)
    ensure (row.status = .review) (.notInReview c.artifact_ref row.status.value)

end Objectives

inductive ObjectiveEvent
  | create (c : Objectives.Create)
  | derive (c : Objectives.Call)
  | certify (c : Objectives.Call) (job_id : UUID)
  /-- A Job ends with a certificate. -/
  | certificate (job : CertifyJob) (actor certificate_id : UUID) (result : CertificateResult)
  /-- A Job ends without one. -/
  | jobFails (job : CertifyJob)
  | submitForReview (c : Objectives.Review)
  | decide (d : Decision)
  | withdraw (w : Withdrawal) (live : Bool)
  /-- A submission by the generic route. -/
  | submit (c : Submission) (resolve : Except Governance.Refusal PUnit)
  | setPolicy (workspace_id : UUID) (policy : ApprovalPolicy)
  | record (e : AuditEventRow)

namespace Objectives

def init (policies : UUID → ApprovalPolicy) : Objectives :=
  ⟨[], [], [], [], ⟨[], [], [], policies⟩, 0⟩

/-- A refused call is rolled back. -/
def committed (s : Objectives) : Except ObjectiveRefusal Objectives → Objectives
  | .ok s' => s'
  | .error _ => s

variable (derive : String → Except String String)

/-- One call. Ids are new, and only a Job that is queued ends. -/
def step (s : Objectives) : ObjectiveEvent → Option Objectives
  | .create c =>
    if ∀ o ∈ s.objectives, o.id ≠ c.id then some (s.committed (s.createObjective c)) else none
  | .derive c => some (s.committed (s.deriveObjective derive c))
  | .certify c job_id => some (s.committed (s.certify c job_id))
  | .certificate job actor certificate_id result =>
    if job ∈ s.jobs ∧ ∀ c ∈ s.certificates, c.id ≠ certificate_id then
      some (({ s with jobs := s.jobs.erase job } : Objectives).committed
        (({ s with jobs := s.jobs.erase job } : Objectives).recordCertificate job actor
          certificate_id result))
    else none
  | .jobFails job => if job ∈ s.jobs then some { s with jobs := s.jobs.erase job } else none
  | .submitForReview c => some (s.committed ((s.submitForReview c).map (·.1)))
  | .decide d => some (s.committed (s.decideAndCarry d))
  | .withdraw w live => some (s.committed (s.withdrawAndCarry w live))
  | .submit c resolve => some (s.committed (((Governance.submit s.approvals c
      (s.resolveRef c resolve)).mapError .governance).map fun q => { s with approvals := q.1 }))
  | .setPolicy workspace_id policy => some { s with approvals := { s.approvals with
      policies := fun w => if w = workspace_id then policy else s.approvals.policies w } }
  | .record e => some { s with approvals := { s.approvals with audit := s.approvals.audit ++ [e] } }

end Objectives

end GiPricing.Modelling
