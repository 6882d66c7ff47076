import GiPricing.Failure.Except
import GiPricing.Transition.Run
import GiPricing.Text.Char

/-! # Role grants

What a principal may do, from its role assignments, and the calls that add and revoke them. A
break-glass grant is an assignment with an expiry and a reason.
-/

namespace GiPricing.Rbac

open Failure

abbrev UUID := ℕ

inductive Permission
  | datasetRead | datasetWrite | datasetValidate | datasetAcknowledgeWarning
  | modelRead | modelFit | modelSubmit | customObjectiveAuthor
  | ratingRead | ratingWrite | ratingSubmit | ratingCompile
  | approvalDecide | deploymentPromote | auditRead
  | scoreExecute | scoreBatch
  | jobRead | jobCancel | settingsRead
  | adminManageRoles | adminManageSettings | adminManageEnvironments
  | adminManageServiceAccounts | adminBreakGlass
  deriving DecidableEq

inductive ScopeType
  | dataset
  | modelFamily
  | ratingAlgorithm
  | environment
  deriving DecidableEq

/-- The scope of an assignment: a resource is named exactly where it is not workspace-wide. -/
inductive Scope
  | workspace
  | resource (scope_type : ScopeType) (scope_id : UUID)
  deriving DecidableEq

structure ResourceRef where
  scope_type : ScopeType
  scope_id : UUID
  deriving DecidableEq

structure RoleRow where
  id : UUID
  workspace_id : UUID
  slug : String
  permissions : List Permission
  deriving DecidableEq

/-- A role granted to a principal. Times are in seconds. -/
structure RoleAssignmentRow where
  id : UUID
  workspace_id : UUID
  principal_id : UUID
  role_id : UUID
  scope : Scope
  granted_by : Option UUID
  expires_at : Option ℕ
  reason : Option String
  break_glass : Bool
  revoked_at : Option ℕ
  boxed : break_glass = true → expires_at.isSome = true ∧ reason.isSome = true
  deriving DecidableEq

structure Store where
  assignments : List RoleAssignmentRow
  drawn : List UUID

inductive Refusal
  | permissionDenied (permission : Permission)
  | notFound (role_slug : String)
  | escalation (permissions : List Permission)
  | breakGlassReasonRequired
  | validationFailed
  deriving DecidableEq

def maxBreakGlassHours : ℤ := 8

/-! ## Permissions -/

def RoleAssignmentRow.live (a : RoleAssignmentRow) (now : ℕ) : Bool :=
  a.revoked_at.isNone && a.expires_at.all fun t => now < t

/-- `_covers`. -/
def RoleAssignmentRow.covers (a : RoleAssignmentRow) (resource : Option ResourceRef) : Bool :=
  match a.scope, resource with
  | .workspace, _ => true
  | .resource _ _, none => false
  | .resource t i, some r => t = r.scope_type && i = r.scope_id

def Store.effectivePermissions (s : Store) (roles : List RoleRow) (workspace_id : UUID)
    (principal : Option UUID) (resource : Option ResourceRef)
    (credential_permissions : List Permission) (now : ℕ) : List Permission :=
  match principal with
  | none => []
  | some principal_id =>
    let rows := s.assignments.filter fun a => a.workspace_id = workspace_id ∧
      a.principal_id = principal_id ∧ a.live now = true ∧ a.covers resource = true
    let granted := rows.flatMap fun a =>
      (roles.filter fun role => role.id = a.role_id).flatMap RoleRow.permissions
    granted ++ credential_permissions

/-- The permissions a grant is checked against: workspace-wide, without a credential. -/
def Store.held (s : Store) (roles : List RoleRow) (workspace_id : UUID) (principal : Option UUID)
    (now : ℕ) : List Permission :=
  s.effectivePermissions roles workspace_id principal none [] now

def requirePermission (held : List Permission) (permission : Permission) :
    Except Refusal PUnit := ensure (permission ∈ held) (.permissionDenied permission)

def findRole (roles : List RoleRow) (workspace_id : UUID) (role_slug : String) : Option RoleRow :=
  roles.find? fun role => role.workspace_id = workspace_id ∧ role.slug = role_slug

/-! ## Calls -/

structure RoleGrant where
  workspace_id : UUID
  granter : Option UUID
  principal_id : UUID
  role_slug : String
  scope : Scope

structure BreakGlassGrant where
  workspace_id : UUID
  granter : Option UUID
  principal_id : UUID
  role_slug : String
  reason : String
  hours : ℤ

def Store.add (s : Store) (a : RoleAssignmentRow) : Store :=
  { s with assignments := s.assignments ++ [a] }

def RoleGrant.assignment (g : RoleGrant) (id : UUID) (role : RoleRow) : RoleAssignmentRow :=
  ⟨id, g.workspace_id, g.principal_id, role.id, g.scope, g.granter, none, none, false, none,
    fun h => absurd h Bool.false_ne_true⟩

def BreakGlassGrant.assignment (g : BreakGlassGrant) (id : UUID) (role : RoleRow) (now : ℕ) :
    RoleAssignmentRow :=
  ⟨id, g.workspace_id, g.principal_id, role.id, .workspace, g.granter,
    some (now + (g.hours * 3600).toNat), some g.reason, true, none, fun _ => ⟨rfl, rfl⟩⟩

def grantRole (roles : List RoleRow) (s : Store) (g : RoleGrant) (id : UUID) (now : ℕ) :
    Except Refusal Store := do
  requirePermission (s.held roles g.workspace_id g.granter now) .adminManageRoles
  let role ← require (findRole roles g.workspace_id g.role_slug) (.notFound g.role_slug)
  let escalation := role.permissions.filter fun p =>
    p ∉ s.held roles g.workspace_id g.granter now
  ensure (escalation = []) (.escalation escalation)
  return s.add (g.assignment id role)

def grantBreakGlass (roles : List RoleRow) (s : Store) (g : BreakGlassGrant) (id : UUID)
    (now : ℕ) : Except Refusal Store := do
  ensure (isBlank g.reason = false) .breakGlassReasonRequired
  ensure (0 < g.hours ∧ g.hours ≤ maxBreakGlassHours) .validationFailed
  requirePermission (s.held roles g.workspace_id g.granter now) .adminBreakGlass
  let role ← require (findRole roles g.workspace_id g.role_slug) (.notFound g.role_slug)
  return s.add (g.assignment id role now)

def RoleAssignmentRow.revoke (a : RoleAssignmentRow) (now : ℕ) : RoleAssignmentRow :=
  { a with revoked_at := a.revoked_at.or (some now) }

/-- Set `revoked_at` of an assignment. -/
def Store.revoke (s : Store) (id : UUID) (now : ℕ) : Store :=
  { s with assignments := s.assignments.map fun a => if a.id = id then a.revoke now else a }

inductive Call
  | grantRole (g : RoleGrant)
  | grantBreakGlass (g : BreakGlassGrant)
  | revoke (id : UUID)

def Call.isBreakGlass : Call → Bool
  | .grantBreakGlass _ => true
  | _ => false

structure Event where
  call : Call
  id : UUID
  now : ℕ

def Store.attempt (s : Store) (result : Except Refusal Store) : Store := match result with
  | .ok s' => s'
  | .error _ => s

def Store.call (roles : List RoleRow) (s : Store) (e : Event) : Store := match e.call with
  | .grantRole g => s.attempt (grantRole roles s g e.id e.now)
  | .grantBreakGlass g => s.attempt (grantBreakGlass roles s g e.id e.now)
  | .revoke id => s.revoke id e.now

def step (roles : List RoleRow) (s : Store) (e : Event) : Option Store :=
  if e.id ∈ s.drawn then none
  else some { s.call roles e with drawn := e.id :: s.drawn }

end GiPricing.Rbac
