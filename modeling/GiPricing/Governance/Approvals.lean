import GiPricing.Failure.Except
import GiPricing.Text.Char

/-! # Approval requests

Submission, decision and withdrawal of approval requests under a workspace's policy. What a
decision means for the artifact is the owning module's.
-/

namespace GiPricing.Governance

open Failure

abbrev UUID := ℕ

inductive ApprovalStatus
  | draft
  | review
  | approved
  | changesRequested
  | rejected
  | withdrawn
  deriving DecidableEq

inductive DecisionKind
  | approve
  | reject
  | requestChanges
  deriving DecidableEq

def validApprovalTransitions : ApprovalStatus → List ApprovalStatus
  | .draft => []
  | .review => [.approved, .rejected, .changesRequested, .withdrawn]
  | .changesRequested => []
  | .approved => [.withdrawn]
  | .rejected => []
  | .withdrawn => []

inductive Permission
  | approvalDecide
  | deploymentPromote
  deriving DecidableEq

/-- A caller, with the permissions and the roles held in the workspace when the call runs. -/
structure Principal where
  id : UUID
  permissions : List Permission
  roles : List String

structure ArtifactRef where
  type : String
  slug : String
  version : ℕ
  deriving DecidableEq

/-! ## The policy -/

structure ApprovalPolicyEntry where
  artifact_type : String
  approvers_required : ℕ
  approver_roles : List String
  environment : Option String
  skippable_predecessors : List String
  one_to_five : 1 ≤ approvers_required ∧ approvers_required ≤ 5

structure ApprovalPolicy where
  policies : List ApprovalPolicyEntry

/-- The most specific matching entry, environment-qualified first. -/
def ApprovalPolicy.entryFor (policy : ApprovalPolicy) (artifact_type : String)
    (environment : Option String) : Option ApprovalPolicyEntry :=
  (policy.policies.find? fun p => p.artifact_type = artifact_type ∧ p.environment = environment) <|>
    policy.policies.find? fun p => p.artifact_type = artifact_type ∧ p.environment = none

/-! ## The tables -/

structure ApprovalRequestRow where
  id : UUID
  workspace_id : UUID
  artifact_ref : ArtifactRef
  environment : Option String
  submitted_by : UUID
  change_summary : String
  status : ApprovalStatus
  approvers_required : ℕ
  withdrawn_reason : Option String
  deriving DecidableEq

def ApprovalRequestRow.artifact_type (row : ApprovalRequestRow) : String := row.artifact_ref.type

structure ApprovalDecisionRow where
  request_id : UUID
  approver_id : UUID
  decision : DecisionKind
  comment : Option String
  deriving DecidableEq

structure AuditEventRow where
  workspace_id : UUID
  entity_ref : ArtifactRef
  action : String
  actor : UUID
  deriving DecidableEq

structure Store where
  requests : List ApprovalRequestRow
  decisions : List ApprovalDecisionRow
  audit : List AuditEventRow
  policies : UUID → ApprovalPolicy

/-- The audit event each approvable type's creation records. -/
def creationActions : String → Option String
  | "model" => some "model.reserved"
  | "custom_objective" => some "custom_objective.created"
  | "custom_metric" => some "custom_metric.created"
  | "peril_structure" => some "peril_structure.created"
  | "validation_rule" => some "validation_rule.created"
  | "dataset_version" => some "dataset_version.created"
  | "rating_version" => some "rating_version.created"
  | "deployment" => some "deployment_request.created"
  | _ => none

inductive Refusal
  | changeSummaryRequired
  | noPolicy (artifact_type : String)
  | unresolved (ref : ArtifactRef)
  | alreadyUnderReview (ref : ArtifactRef)
  | evidenceAuthorsRequired
  | notFound (request_id : UUID)
  | notOpen (status : ApprovalStatus)
  | submitterCannotApprove
  | authorUnresolved (ref : ArtifactRef)
  | authorCannotApprove
  | evidenceUnreadable (ref : ArtifactRef)
  | approvalByEvidenceAuthor (ref : ArtifactRef)
  | permissionDenied (permission : Permission)
  | roleMayNotApprove (artifact_type : String) (approver_roles : List String)
  | commentRequired
  | duplicateApprover
  | invalidTransition (current target : ApprovalStatus)
  | withdrawAfterDeploy
  | withdrawalReasonRequired
  | notInReview (ref : ArtifactRef) (status : String)
  | artifactRefuses (ref : ArtifactRef) (status : String)

/-- The code of a refusal; a missing resolver is a programming error and has none. -/
def Refusal.code : Refusal → Option String
  | .changeSummaryRequired | .noPolicy _ | .alreadyUnderReview _ | .commentRequired
  | .withdrawalReasonRequired | .artifactRefuses _ _ => some "VALIDATION_FAILED"
  | .unresolved _ | .notFound _ => some "NOT_FOUND"
  | .evidenceAuthorsRequired | .evidenceUnreadable _ => none
  | .notOpen _ | .invalidTransition _ _ => some "APPROVAL_ALREADY_DECIDED"
  | .submitterCannotApprove => some "SUBMITTER_CANNOT_APPROVE"
  | .authorUnresolved _ => some "APPROVAL_AUTHOR_UNRESOLVED"
  | .authorCannotApprove => some "AUTHOR_CANNOT_APPROVE"
  | .approvalByEvidenceAuthor _ => some "APPROVAL_BY_EVIDENCE_AUTHOR"
  | .permissionDenied _ | .roleMayNotApprove _ _ => some "PERMISSION_DENIED"
  | .duplicateApprover => some "DUPLICATE_APPROVER"
  | .withdrawAfterDeploy => some "WITHDRAW_AFTER_DEPLOY_FORBIDDEN"
  | .notInReview _ _ => some "APPROVAL_SUBJECT_NOT_IN_REVIEW"

/-! ## The machine -/

/-- What `submit` is called with; the row gets a new id. -/
structure Submission where
  id : UUID
  workspace_id : UUID
  submitter : Principal
  artifact_ref : ArtifactRef
  change_summary : String
  environment : Option String
  additional_approvers : ℕ

/-- `submit`, where the resolver answers whether the version exists and may be submitted. -/
def submit (g : Store) (s : Submission) (resolve : Except Refusal PUnit) :
    Except Refusal (Store × ApprovalRequestRow) := do
  ensure (¬ isBlank s.change_summary) .changeSummaryRequired
  let entry ← require ((g.policies s.workspace_id).entryFor s.artifact_ref.type s.environment)
    (.noPolicy s.artifact_ref.type)
  resolve
  ensure (¬ ∃ r ∈ g.requests, r.workspace_id = s.workspace_id ∧ r.artifact_ref = s.artifact_ref ∧
    (r.status = .draft ∨ r.status = .review)) (.alreadyUnderReview s.artifact_ref)
  let row : ApprovalRequestRow :=
    { id := s.id
      workspace_id := s.workspace_id
      artifact_ref := s.artifact_ref
      environment := s.environment
      submitted_by := s.submitter.id
      change_summary := s.change_summary
      status := .review
      approvers_required := entry.approvers_required + s.additional_approvers
      withdrawn_reason := none }
  return ({ g with requests := g.requests ++ [row] }, row)

def load (g : Store) (workspace_id request_id : UUID) : Except Refusal ApprovalRequestRow :=
  require (g.requests.find? fun r => r.id = request_id ∧ r.workspace_id = workspace_id)
    (.notFound request_id)

/-- `_author_of`: the actor of the version's first creation event. -/
def authorOf (g : Store) (workspace_id : UUID) (ref : ArtifactRef) : Option UUID :=
  (creationActions ref.type).bind fun action =>
    (g.audit.find? fun e => e.workspace_id = workspace_id ∧ e.entity_ref = ref ∧
      e.action = action).map (·.actor)

def countApprovals (g : Store) (request_id : UUID) : ℕ :=
  (g.decisions.filter fun d => d.request_id = request_id ∧ d.decision = .approve).length

def resolveStatus (decision : DecisionKind) (approvals required : ℕ) : ApprovalStatus :=
  match decision with
  | .reject => .rejected
  | .requestChanges => .changesRequested
  | .approve => if required ≤ approvals then .approved else .review

def requireTransition (current target : ApprovalStatus) : Except Refusal PUnit :=
  ensure (current = target ∨ target ∈ validApprovalTransitions current)
    (.invalidTransition current target)

/-- `_check_approver_role`: the policy of today names the roles that may approve. -/
def checkApproverRole (g : Store) (approver : Principal) (row : ApprovalRequestRow) :
    Except Refusal PUnit :=
  match (g.policies row.workspace_id).entryFor row.artifact_type row.environment with
  | none => .ok ⟨⟩
  | some entry => ensure (∃ role ∈ approver.roles, role ∈ entry.approver_roles)
      (.roleMayNotApprove row.artifact_type entry.approver_roles)

def Store.put (g : Store) (row : ApprovalRequestRow) : Store :=
  { g with requests := g.requests.map fun r => if r.id = row.id then row else r }

/-- What `decide` is called with. -/
structure Decision where
  workspace_id : UUID
  request_id : UUID
  approver : Principal
  decision : DecisionKind
  comment : Option String
  /-- The resolver of the authors of the evidence; it may fail. -/
  evidence_authors : Option (ArtifactRef → Option (List UUID))

/-- The check of a rating version's evidence authors. -/
def checkEvidenceAuthors (d : Decision) (row : ApprovalRequestRow) : Except Refusal PUnit :=
  if row.artifact_type = "rating_version" then do
    let resolver ← require d.evidence_authors .evidenceAuthorsRequired
    let authors ← require (resolver row.artifact_ref) (.evidenceUnreadable row.artifact_ref)
    ensure (d.approver.id ∉ authors) (.approvalByEvidenceAuthor row.artifact_ref)
  else .ok ⟨⟩

def decide (g : Store) (d : Decision) : Except Refusal (Store × ApprovalRequestRow) := do
  let row ← load g d.workspace_id d.request_id
  ensure (row.artifact_type = "rating_version" → d.evidence_authors.isSome) .evidenceAuthorsRequired
  ensure (row.status = .review) (.notOpen row.status)
  ensure (row.submitted_by ≠ d.approver.id) .submitterCannotApprove
  let author ← require (authorOf g d.workspace_id row.artifact_ref)
    (.authorUnresolved row.artifact_ref)
  ensure (author ≠ d.approver.id) .authorCannotApprove
  checkEvidenceAuthors d row
  ensure (Permission.approvalDecide ∈ d.approver.permissions) (.permissionDenied .approvalDecide)
  checkApproverRole g d.approver row
  ensure (d.decision = .requestChanges → ¬ isBlank (d.comment.getD "")) .commentRequired
  ensure (¬ ∃ e ∈ g.decisions, e.request_id = row.id ∧ e.approver_id = d.approver.id)
    .duplicateApprover
  let g : Store :=
    { g with decisions := g.decisions ++ [⟨row.id, d.approver.id, d.decision, d.comment⟩] }
  let status := resolveStatus d.decision (countApprovals g row.id) row.approvers_required
  requireTransition row.status status
  let row := { row with status := status }
  return (g.put row, row)

/-- What `withdraw` is called with. -/
structure Withdrawal where
  workspace_id : UUID
  request_id : UUID
  actor : Principal
  reason : String

def withdraw (g : Store) (w : Withdrawal) (artifact_is_live : Bool) :
    Except Refusal (Store × ApprovalRequestRow) := do
  let row ← load g w.workspace_id w.request_id
  ensure (artifact_is_live = false) .withdrawAfterDeploy
  ensure (¬ isBlank w.reason) .withdrawalReasonRequired
  ensure (Permission.approvalDecide ∈ w.actor.permissions) (.permissionDenied .approvalDecide)
  requireTransition row.status .withdrawn
  let row := { row with status := .withdrawn, withdrawn_reason := some w.reason }
  return (g.put row, row)

/-! ## Rows -/

section Rows

variable {g g' : Store} {old new r : ApprovalRequestRow}

theorem ids_put (g : Store) (new : ApprovalRequestRow) :
    (g.put new).requests.map (·.id) = g.requests.map (·.id) := by
  rw [Store.put, List.map_map]
  refine List.map_congr_left fun r _ => ?_
  simp only [Function.comp_apply]
  split_ifs with h
  · exact h.symm
  · rfl

theorem eq_of_id (hids : (g.requests.map (·.id)).Nodup) (hold : old ∈ g.requests)
    (hr : r ∈ g.requests) (h : r.id = old.id) : r = old :=
  List.inj_on_of_nodup_map hids hr hold h

/-- The rows after one is written back. -/
theorem mem_put (hold : old ∈ g.requests) (hid : new.id = old.id) :
    r ∈ (g.put new).requests ↔ r = new ∨ r ∈ g.requests ∧ r.id ≠ old.id := by
  simp only [Store.put, List.mem_map, hid]
  constructor
  · rintro ⟨q, hq, rfl⟩
    split_ifs with h
    · exact Or.inl rfl
    · exact Or.inr ⟨hq, h⟩
  · rintro (rfl | ⟨hr, hne⟩)
    · exact ⟨old, hold, if_pos rfl⟩
    · exact ⟨r, hr, if_neg hne⟩

end Rows

/-! ## What each call does -/

section Calls

variable {g g' : Store} {row row' : ApprovalRequestRow}

theorem load_eq_ok {workspace_id request_id : UUID} (h : load g workspace_id request_id = .ok row) :
    row ∈ g.requests ∧ row.id = request_id ∧ row.workspace_id = workspace_id := by
  rw [load, require_eq_ok] at h
  have := List.find?_some h
  simp only [decide_eq_true_eq] at this
  exact ⟨List.mem_of_find?_eq_some h, this⟩

theorem submit_eq_ok {s : Submission} {resolve : Except Refusal PUnit}
    (h : submit g s resolve = .ok (g', row)) :
    g' = { g with requests := g.requests ++ [row] } ∧ row.id = s.id ∧ row.status = .review ∧
      1 ≤ row.approvers_required ∧ row.artifact_ref = s.artifact_ref ∧
      row.workspace_id = s.workspace_id := by
  simp only [submit, bind_eq_ok, ensure_eq_ok, require_eq_ok, pure_eq_ok, Prod.mk.injEq] at h
  obtain ⟨-, -, entry, -, -, -, -, -, rfl, rfl⟩ := h
  exact ⟨rfl, rfl, rfl, entry.one_to_five.1.trans (Nat.le_add_right _ _), rfl, rfl⟩

theorem submit_resolved {s : Submission} {resolve : Except Refusal PUnit}
    (h : submit g s resolve = .ok (g', row)) : resolve = .ok ⟨⟩ := by
  simp only [submit, bind_eq_ok] at h
  obtain ⟨-, -, -, -, u, hu, -⟩ := h
  exact hu

/-- Everything a successful decision has checked, and what it writes. -/
structure Decided (g g' : Store) (d : Decision) (old new : ApprovalRequestRow) : Prop where
  mem : old ∈ g.requests
  id : old.id = d.request_id
  workspace : old.workspace_id = d.workspace_id
  open_ : old.status = .review
  submitter : old.submitted_by ≠ d.approver.id
  author : ∃ author, authorOf g d.workspace_id old.artifact_ref = some author ∧
    author ≠ d.approver.id
  evidence : checkEvidenceAuthors d old = .ok ⟨⟩
  once : ¬ ∃ e ∈ g.decisions, e.request_id = old.id ∧ e.approver_id = d.approver.id
  decisions : g'.decisions = g.decisions ++ [⟨old.id, d.approver.id, d.decision, d.comment⟩]
  new_eq : new = { old with
    status := resolveStatus d.decision (countApprovals g' old.id) old.approvers_required }
  store : g' = { g with decisions := g'.decisions }.put new

theorem decide_eq_ok {d : Decision} (h : decide g d = .ok (g', row')) :
    ∃ row, Decided g g' d row row' := by
  simp only [decide, bind_eq_ok, ensure_eq_ok, require_eq_ok, pure_eq_ok, Prod.mk.injEq] at h
  obtain ⟨row, hload, -, -, -, hopen, -, hsub, author, hauthor, -, hne, u, hev, -, -, -, -, -, -,
    -, honce, -, -, rfl, rfl⟩ := h
  obtain ⟨hmem, hid, hws⟩ := load_eq_ok hload
  exact ⟨row, hmem, hid, hws, hopen, hsub, ⟨author, hauthor, hne⟩, hev, honce, rfl, rfl, rfl⟩

theorem withdraw_eq_ok {w : Withdrawal} {live : Bool} (h : withdraw g w live = .ok (g', row')) :
    ∃ row ∈ g.requests, row.id = w.request_id ∧ live = false ∧
      (row.status = .withdrawn ∨ row.status = .review ∨ row.status = .approved) ∧
      row' = { row with status := .withdrawn, withdrawn_reason := some w.reason } ∧
      g' = g.put row' := by
  simp only [withdraw, requireTransition, bind_eq_ok, ensure_eq_ok, pure_eq_ok, Prod.mk.injEq] at h
  obtain ⟨row, hload, -, hlive, -, -, -, -, -, htr, rfl, rfl⟩ := h
  obtain ⟨hmem, hid, -⟩ := load_eq_ok hload
  refine ⟨row, hmem, hid, hlive, ?_, rfl, rfl⟩
  rcases htr with htr | htr
  · exact Or.inl htr
  · revert htr
    cases row.status <;> simp [validApprovalTransitions]

/-- Every request after a decision is an old one, but for the status. -/
theorem Decided.requests {d : Decision} {old new r : ApprovalRequestRow}
    (h : Decided g g' d old new) (hr : r ∈ g'.requests) :
    ∃ q ∈ g.requests, r.workspace_id = q.workspace_id ∧ r.artifact_ref = q.artifact_ref := by
  have hnew : new.id = old.id ∧ new.workspace_id = old.workspace_id ∧
      new.artifact_ref = old.artifact_ref := by
    rw [h.new_eq]
    exact ⟨rfl, rfl, rfl⟩
  rw [h.store] at hr
  rcases (@mem_put { g with decisions := g'.decisions } old new r h.mem hnew.1).mp hr with
    rfl | ⟨hr, -⟩
  · exact ⟨old, h.mem, hnew.2⟩
  · exact ⟨r, hr, rfl, rfl⟩

end Calls

end GiPricing.Governance
