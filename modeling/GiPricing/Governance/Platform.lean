import GiPricing.Governance.Approvals
import GiPricing.Transition.Run

/-! # Calls on approval requests

A decision or a withdrawal is carried to the artifact behind the request in the same transaction:
a call that any part refuses changes nothing.
-/

namespace GiPricing.Governance

open Failure

/-- The status of an artifact version, written by its owning module. -/
structure Version where
  workspace_id : UUID
  ref : ArtifactRef
  status : String
  deriving DecidableEq

/-- How a module carries a decided request: the status each outcome means, the versions it leaves
where they are, and the moves it allows. -/
structure Lifecycle where
  target : ApprovalStatus → Option String
  stays : String → String → Bool
  allowed : String → String → Bool
  supersedes : Bool

/-- `_target_status`: approved, or back to the state before submission. -/
def returnsTo (returned : String) : ApprovalStatus → Option String
  | .approved => some "approved"
  | .changesRequested | .rejected | .withdrawn => some returned
  | .draft | .review => none

def validModelTransitions : String → List String
  | "draft" => ["fitted", "archived"]
  | "fitted" => ["review", "archived"]
  | "review" => ["approved", "fitted"]
  | "approved" => ["superseded"]
  | "superseded" => ["archived"]
  | _ => []

/-- The transitions of a custom objective, and of a custom metric. -/
def validObjectiveTransitions : String → List String
  | "draft" => ["certified", "deprecated"]
  | "certified" => ["review", "draft", "deprecated"]
  | "review" => ["approved", "certified"]
  | "approved" => ["deprecated"]
  | _ => []

def validPerilStructureTransitions : String → List String
  | "draft" => ["reconciled", "archived"]
  | "reconciled" => ["review", "archived"]
  | "review" => ["approved", "reconciled"]
  | "approved" => ["superseded"]
  | "superseded" => ["archived"]
  | _ => []

/-- A module that guards every move by its table of transitions. -/
def tabled (returned : String) (transitions : String → List String) (supersedes : Bool) :
    Lifecycle where
  target := returnsTo returned
  stays := (· = ·)
  allowed before target := target ∈ transitions before
  supersedes := supersedes

def modelLifecycle : Lifecycle := tabled "fitted" validModelTransitions true

def objectiveLifecycle : Lifecycle := tabled "certified" validObjectiveTransitions false

def metricLifecycle : Lifecycle := tabled "certified" validObjectiveTransitions false

def perilLifecycle : Lifecycle := tabled "reconciled" validPerilStructureTransitions true

def validationRuleLifecycle : Lifecycle where
  target := returnsTo "draft"
  stays := (· = ·)
  allowed before _ := before = "review"
  supersedes := false

def ratingVersionLifecycle : Lifecycle where
  target := returnsTo "draft"
  stays before target := target = "draft" ∧ before = "draft"
  allowed before _ := before = "review"
  supersedes := false

def deploymentLifecycle : Lifecycle where
  target
    | .approved => some "approved"
    | .changesRequested | .rejected => some "rejected"
    | .withdrawn => some "withdrawn"
    | .draft | .review => none
  stays _ _ := false
  allowed before _ := before = "review"
  supersedes := false

def lifecycle : String → Option Lifecycle
  | "model" => some modelLifecycle
  | "custom_objective" => some objectiveLifecycle
  | "custom_metric" => some metricLifecycle
  | "validation_rule" => some validationRuleLifecycle
  | "peril_structure" => some perilLifecycle
  | "rating_version" => some ratingVersionLifecycle
  | "deployment" => some deploymentLifecycle
  | _ => none

structure Platform where
  store : Store
  versions : List Version
  /-- The rating versions with a Deployment, by workspace. -/
  deployed : List (UUID × ArtifactRef)

namespace Platform

/-- What moving a version means for one row: an approval may supersede earlier versions. -/
def moved (l : Lifecycle) (v : Version) (target : String) (u : Version) : Version :=
  if u.workspace_id = v.workspace_id ∧ u.ref = v.ref then { u with status := target }
  else if l.supersedes ∧ target = "approved" ∧ u.workspace_id = v.workspace_id ∧
      u.ref.type = v.ref.type ∧ u.ref.slug = v.ref.slug ∧ u.ref.version < v.ref.version ∧
      u.status = "approved" then { u with status := "superseded" }
  else u

/-- `_carry_to_the_artifact`; `clear` is the module's own gate on an approval (a model's flags, a
rule's dry run, a structure's components, a deployment request's evidence). -/
def carry (p : Platform) (row : ApprovalRequestRow) (clear : Bool) : Except Refusal Platform :=
  match lifecycle row.artifact_type with
  | none => .ok p
  | some l =>
    match p.versions.find? fun v => v.workspace_id = row.workspace_id ∧ v.ref = row.artifact_ref with
    | none => .ok p
    | some v =>
      match l.target row.status with
      | none => .ok p
      | some target =>
        if l.stays v.status target then .ok p
        else do
          ensure (l.allowed v.status target) (.artifactRefuses row.artifact_ref v.status)
          ensure (target = "approved" → clear) (.artifactRefuses row.artifact_ref v.status)
          return { p with versions := p.versions.map (moved l v target) }

def decideAndCarry (p : Platform) (d : Decision) (clear : Bool) : Except Refusal Platform := do
  let (store, row) ← decide p.store d
  carry { p with store := store } row clear

/-- `_is_deployed`: the request is about a rating version with a Deployment. -/
def isDeployed (p : Platform) (workspace_id request_id : UUID) : Bool :=
  match p.store.requests.find? fun r => r.id = request_id ∧ r.workspace_id = workspace_id with
  | none => false
  | some row => row.artifact_type = "rating_version" ∧
      (workspace_id, row.artifact_ref) ∈ p.deployed

def withdrawAndCarry (p : Platform) (w : Withdrawal) (clear : Bool) :
    Except Refusal Platform := do
  let (store, row) ← withdraw p.store w (p.isDeployed w.workspace_id w.request_id)
  carry { p with store := store } row clear

end Platform

inductive Event
  | setPolicy (workspace_id : UUID) (policy : ApprovalPolicy)
  /-- The audit chain grows. -/
  | record (e : AuditEventRow)
  /-- A module writes a version of its own. -/
  | own (versions : List Version)
  | deploy (workspace_id : UUID) (ref : ArtifactRef)
  | submit (s : Submission) (resolve : Except Refusal PUnit)
  | decide (d : Decision) (clear : Bool)
  | withdraw (w : Withdrawal) (clear : Bool)

namespace Platform

/-- A refused call is rolled back. -/
def committed (p : Platform) : Except Refusal Platform → Platform
  | .ok p' => p'
  | .error _ => p

def step (p : Platform) : Event → Option Platform
  | .setPolicy workspace_id policy => some { p with store := { p.store with
      policies := fun w => if w = workspace_id then policy else p.store.policies w } }
  | .record e => some { p with store := { p.store with audit := p.store.audit ++ [e] } }
  | .own versions => some { p with versions := versions }
  | .deploy workspace_id ref => some { p with deployed := (workspace_id, ref) :: p.deployed }
  | .submit s resolve =>
    if ∀ r ∈ p.store.requests, r.id ≠ s.id then
      some (p.committed ((submit p.store s resolve).map fun q => { p with store := q.1 }))
    else none
  | .decide d clear => some (p.committed (p.decideAndCarry d clear))
  | .withdraw w clear => some (p.committed (p.withdrawAndCarry w clear))

def init (policies : UUID → ApprovalPolicy) : Platform := ⟨⟨[], [], [], policies⟩, [], []⟩

/-! ## What carrying does -/

variable {p p' : Platform}

theorem carry_store {row : ApprovalRequestRow} {clear : Bool} (h : p.carry row clear = .ok p') :
    p'.store = p.store := by
  unfold carry at h
  split at h
  · cases h
    rfl
  · split at h
    · cases h
      rfl
    · split at h
      · cases h
        rfl
      · split_ifs at h
        · cases h
          rfl
        · simp only [bind_eq_ok, ensure_eq_ok, pure_eq_ok] at h
          obtain ⟨-, -, -, -, rfl⟩ := h
          rfl

theorem decideAndCarry_eq_ok {d : Decision} {clear : Bool}
    (h : p.decideAndCarry d clear = .ok p') :
    ∃ row, decide p.store d = .ok (p'.store, row) := by
  obtain ⟨⟨store, row⟩, hd, hc⟩ := bind_eq_ok.mp h
  exact ⟨row, by rw [hd, carry_store hc]⟩

theorem withdrawAndCarry_eq_ok {w : Withdrawal} {clear : Bool}
    (h : p.withdrawAndCarry w clear = .ok p') :
    ∃ row, withdraw p.store w (p.isDeployed w.workspace_id w.request_id) = .ok (p'.store, row) := by
  obtain ⟨⟨store, row⟩, hw, hc⟩ := bind_eq_ok.mp h
  exact ⟨row, by rw [hw, carry_store hc]⟩

end Platform

end GiPricing.Governance
