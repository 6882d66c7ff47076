import GiPricing.Transition.Run
import Mathlib.Data.Finset.Card
import Mathlib.Data.Prod.Lex
import Mathlib.Logic.Function.Basic

/-! # The deployment switch

A deploy asks every subscribed process to prepare, commits its row, and then asks them to swap.
A message can arrive late, twice or never, and a process reconciles with the database meanwhile.
-/

namespace GiPricing.Deployment

abbrev UUID := ℕ

abbrev ProcessId := String

abbrev Key := UUID × String

structure LiveEntry where
  deployment_id : UUID
  rating_version_ref : String
  bundle_hash : String
  deriving DecidableEq

/-- A row of `deployments`, its Environment by its slug, which is never reissued. -/
structure DeploymentRow where
  id : UUID
  workspace_id : UUID
  environment : String
  rating_version_ref : String
  bundle_hash : String
  deployed_at : ℕ
  deployment_request_id : Option UUID
  deriving DecidableEq

namespace DeploymentRow

def key (row : DeploymentRow) : Key := (row.workspace_id, row.environment)

def entry (row : DeploymentRow) : LiveEntry :=
  ⟨row.id, row.rating_version_ref, row.bundle_hash⟩

/-- The order of Deployments: `(deployed_at, id)`. -/
def stamp (row : DeploymentRow) : ℕ ×ₗ ℕ := toLex (row.deployed_at, row.id)

end DeploymentRow

/-- `_latest_deployments`: the last Deployment of every Environment. -/
def latestDeployments (db : List DeploymentRow) : List DeploymentRow :=
  db.filter fun r => db.all fun s => s.environment = r.environment → s.stamp ≤ r.stamp

/-! ## The live reference of a process -/

structure LiveRefs where
  live : Key → Option LiveEntry
  writes : Key → ℕ

namespace LiveRefs

def empty : LiveRefs := ⟨fun _ => none, fun _ => 0⟩

def set (refs : LiveRefs) (key : Key) (entry : LiveEntry) : LiveRefs where
  live := Function.update refs.live key (some entry)
  writes := Function.update refs.writes key (refs.writes key + 1)

/-- One row of a `reconcile` pass: an entry written since the pass began is left alone. -/
def reconcileRow (since : Key → ℕ) (refs : LiveRefs) (row : DeploymentRow) : LiveRefs :=
  if refs.writes row.key = since row.key then refs.set row.key row.entry else refs

/-- `LiveRefs.reconcile` once its read has returned. -/
def reconcile (refs : LiveRefs) (since : Key → ℕ) (rows : List DeploymentRow) : LiveRefs :=
  rows.foldl (reconcileRow since) refs

end LiveRefs

/-! ## Messages -/

inductive Phase
  | prepare
  | commit
  deriving DecidableEq

structure SwitchMessage where
  switch_id : UUID
  phase : Phase
  workspace_id : UUID
  environment : String
  deployment_id : UUID
  rating_version_ref : String
  bundle_hash : String
  deriving DecidableEq

namespace SwitchMessage

def key (m : SwitchMessage) : Key := (m.workspace_id, m.environment)

def entry (m : SwitchMessage) : LiveEntry :=
  ⟨m.deployment_id, m.rating_version_ref, m.bundle_hash⟩

def toCommit (m : SwitchMessage) : SwitchMessage := { m with phase := .commit }

/-- The row that the deploy behind a PREPARE commits. -/
def row (m : SwitchMessage) (deployed_at : ℕ) (request : Option UUID) : DeploymentRow where
  id := m.deployment_id
  workspace_id := m.workspace_id
  environment := m.environment
  rating_version_ref := m.rating_version_ref
  bundle_hash := m.bundle_hash
  deployed_at := deployed_at
  deployment_request_id := request

end SwitchMessage

structure PrepareOutcome where
  prepared : Finset ProcessId
  receivers : ℕ
  pruned_stale : Finset ProcessId

structure SwitchIncomplete where
  acknowledged : Finset ProcessId
  unacknowledged : Finset ProcessId
  receivers : ℕ

/-- `prepare_round` once the acknowledgements are in. -/
def prepareRound (receivers : ℕ) (acked roster : Finset ProcessId) :
    Except SwitchIncomplete PrepareOutcome :=
  if receivers ≤ acked.card then .ok ⟨acked, receivers, roster \ acked⟩
  else .error ⟨acked, roster \ acked, receivers⟩

/-! ## A process -/

/-- A reconcile pass in flight: the write counts it began from, and what its read returned. -/
structure Pass where
  since : Key → ℕ
  state : Option (List DeploymentRow)

structure SwitchMember where
  refs : LiveRefs
  pending : List (UUID × SwitchMessage)
  passes : List Pass

namespace SwitchMember

def empty : SwitchMember := ⟨.empty, [], []⟩

def pendingBound : ℕ := 8

/-- Write one key of the ordered mapping, and drop its first keys beyond the bound. -/
def remember (pending : List (UUID × SwitchMessage)) (m : SwitchMessage) :
    List (UUID × SwitchMessage) :=
  let entries :=
    if pending.any fun p => p.1 = m.switch_id then
      pending.map fun p => if p.1 = m.switch_id then (p.1, m) else p
    else pending ++ [(m.switch_id, m)]
  entries.drop (entries.length - pendingBound)

/-- `handle`: whether the process acknowledges the message, and what it is afterwards. -/
def handle (p : SwitchMember) (m : SwitchMessage) (hydrated : Bool) : Bool × SwitchMember :=
  match m.phase with
  | .prepare =>
    if hydrated then (true, { p with pending := remember p.pending m }) else (false, p)
  | .commit =>
    match p.pending.lookup m.switch_id with
    | none => (false, p)
    | some prepared =>
      (true, { p with
        pending := p.pending.filter fun q => q.1 ≠ m.switch_id
        refs := p.refs.set prepared.key prepared.entry })

end SwitchMember

/-! ## The system -/

/-- The committed rows, the messages ever sent, the acknowledgements and the processes. -/
structure Switch where
  db : List DeploymentRow
  sent : List SwitchMessage
  acks : List (UUID × Phase × ProcessId)
  members : ProcessId → SwitchMember

inductive Event
  /-- A deploy publishes its PREPARE, under new identifiers. -/
  | prepare (m : SwitchMessage)
  /-- The deploy's transaction commits after a full PREPARE round. -/
  | commitRow (m : SwitchMessage) (deployed_at : ℕ) (request : Option UUID) (receivers : ℕ)
      (acked roster : Finset ProcessId)
  /-- A deploy with no switch configured commits. -/
  | commitUnswitched (row : DeploymentRow)
  /-- The COMMIT round of a committed deploy. -/
  | publishCommit (m : SwitchMessage)
  | deliver (p : ProcessId) (m : SwitchMessage) (hydrated : Bool)
  | beginPass (p : ProcessId)
  | readPass (p : ProcessId) (i : ℕ)
  | endPass (p : ProcessId) (i : ℕ)

namespace Switch

def init : Switch := ⟨[], [], [], fun _ => .empty⟩

def setMember (s : Switch) (p : ProcessId) (member : SwitchMember) : Switch :=
  { s with members := Function.update s.members p member }

def step (s : Switch) : Event → Option Switch
  | .prepare m =>
    if m.phase = .prepare ∧
        (∀ n ∈ s.sent, n.switch_id ≠ m.switch_id ∧ n.deployment_id ≠ m.deployment_id) ∧
        ∀ row ∈ s.db, row.id ≠ m.deployment_id then
      some { s with sent := m :: s.sent }
    else none
  | .commitRow m deployed_at request receivers acked roster =>
    if m ∈ s.sent ∧ m.phase = .prepare ∧ (∀ row ∈ s.db, row.id ≠ m.deployment_id) ∧
        ∀ p ∈ acked, (m.switch_id, Phase.prepare, p) ∈ s.acks then
      match prepareRound receivers acked roster with
      | .ok _ => some { s with db := m.row deployed_at request :: s.db }
      | .error _ => none
    else none
  | .commitUnswitched row =>
    if (∀ n ∈ s.sent, n.deployment_id ≠ row.id) ∧ ∀ r ∈ s.db, r.id ≠ row.id then
      some { s with db := row :: s.db }
    else none
  | .publishCommit m =>
    if m ∈ s.sent ∧ m.phase = .prepare ∧ ∃ row ∈ s.db, row.id = m.deployment_id then
      some { s with sent := m.toCommit :: s.sent }
    else none
  | .deliver p m hydrated =>
    if m ∈ s.sent then
      let (acknowledged, member) := (s.members p).handle m hydrated
      some { s.setMember p member with
        acks := if acknowledged then (m.switch_id, m.phase, p) :: s.acks else s.acks }
    else none
  | .beginPass p =>
    let member := s.members p
    some (s.setMember p { member with passes := member.passes ++ [⟨member.refs.writes, none⟩] })
  | .readPass p i =>
    let member := s.members p
    some (s.setMember p { member with
      passes := member.passes.modify i fun pass =>
        { pass with state := some (pass.state.getD (latestDeployments s.db)) } })
  | .endPass p i =>
    let member := s.members p
    match member.passes[i]? with
    | some ⟨since, some rows⟩ => some (s.setMember p { member with
        refs := member.refs.reconcile since rows
        passes := member.passes.eraseIdx i })
    | _ => none

end Switch

end GiPricing.Deployment
