import GiPricing.Failure.Except
import GiPricing.Transition.Run
import GiPricing.Transition.Table
import Mathlib.Logic.Function.Basic

/-! # The job lifecycle

Submissions, status changes and deliveries to workers over the `jobs` table. A transaction is one
event; a submission and a delivery take several, and others run between them.
-/

namespace GiPricing.Jobs

open Failure Transition

abbrev UUID := ℕ

inductive JobStatus
  | queued
  | running
  | succeeded
  | failed
  | cancelled
  deriving DecidableEq

def JobStatus.terminal : JobStatus → Bool
  | .succeeded | .failed | .cancelled => true
  | .queued | .running => false

def validTransitions : JobStatus → List JobStatus
  | .queued => [.running, .cancelled, .failed]
  | .running => [.succeeded, .failed, .cancelled]
  | .succeeded | .failed | .cancelled => []

inductive JobKind
  | datasetIngest | datasetValidate | datasetProfile | datasetDerive | blobPromote
  | modelFit | modelTransparency | modelBacktest | modelCompare | perilStructureReconcile
  | objectiveCertify | metricCertify | ratingCompile | ratingRegression
  | rateTableDiff | rateTableDiffCells | scoreBatch | scoreTraceProduce
  | dislocationRun | optimisationRun | gippCheck | monitorRun
  | dossierGenerate | exportRegulatory | blobGc
  deriving DecidableEq

/-- A job. Payloads are their JSON texts, times are counted from some origin. -/
structure JobRow where
  id : UUID
  workspace_id : UUID
  kind : JobKind
  status : JobStatus
  idempotency_key : Option String
  parameters : String
  progress : Option String
  result : Option String
  error : Option String
  platform_build : Option String
  queued_at : ℕ
  started_at : Option ℕ
  finished_at : Option ℕ
  cancellation_requested_at : Option ℕ
  progress_at : Option ℕ
  deriving DecidableEq

inductive AuditEvent
  | submitted (job_id : UUID)
  | moved (job_id : UUID) (before after : JobStatus)
  | cancellationRequested (job_id : UUID)
  deriving DecidableEq

inductive Refusal
  | notFound
  | jobNotCancellable
  | validationFailed
  | idempotencyKeyConflict
  | integrity
  deriving DecidableEq

structure Submission where
  workspace_id : UUID
  kind : JobKind
  parameters : String
  idempotency_key : Option String
  deriving DecidableEq

/-- What a delivery does next, from the row it read. -/
inductive Delivery
  | idle
  | cancel (job_id : UUID)
  | fail (job_id : UUID)
  | start (job_id : UUID)
  | running (job_id : UUID)
  deriving DecidableEq

/-- The table with its audit events, the submissions between their read and their insert, the
answers given, the deliveries and the calls of a handler. -/
structure Platform where
  jobs : List JobRow
  audit : List AuditEvent
  submissions : ℕ → Option Submission
  answers : List (Submission × Except Refusal UUID)
  deliveries : ℕ → Delivery
  handled : List UUID

def Platform.init : Platform := ⟨[], [], fun _ => none, [], fun _ => .idle, []⟩

namespace Platform

variable (p : Platform)

def get (id : UUID) : Option JobRow := p.jobs.find? fun row => row.id = id

def put (row : JobRow) : Platform := { p with jobs := write JobRow.id row p.jobs }

def record (event : AuditEvent) : Platform := { p with audit := p.audit ++ [event] }

/-! ## Submission -/

def findByIdempotencyKey (workspace_id : UUID) (key : String) : Option JobRow :=
  p.jobs.find? fun row => row.workspace_id = workspace_id ∧ row.idempotency_key = some key

/-- `_reject_if_parameters_differ`, and the job there is. -/
def existingAnswer (existing : JobRow) (r : Submission) : Except Refusal UUID :=
  if existing.kind = r.kind ∧ existing.parameters = r.parameters then .ok existing.id
  else .error .idempotencyKeyConflict

def answer (r : Submission) (a : Except Refusal UUID) : Platform :=
  { p with answers := p.answers ++ [(r, a)] }

def newRow (r : Submission) (id : UUID) (now : ℕ) : JobRow :=
  ⟨id, r.workspace_id, r.kind, .queued, r.idempotency_key, r.parameters, none, none, none, none,
    now, none, none, none, none⟩

def keyHeld (r : Submission) : Bool :=
  r.idempotency_key.any fun key => (p.findByIdempotencyKey r.workspace_id key).isSome

/-- `submit` up to its insert. -/
def lookup (client : ℕ) (r : Submission) : Platform :=
  match r.idempotency_key.bind (p.findByIdempotencyKey r.workspace_id) with
  | some existing => p.answer r (existingAnswer existing r)
  | none => { p with submissions := Function.update p.submissions client (some r) }

/-- `submit` from its insert on: the index is the arbiter between concurrent submissions. -/
def insert (client : ℕ) (r : Submission) (id : UUID) (now : ℕ) : Platform :=
  let p := { p with submissions := Function.update p.submissions client none }
  if p.keyHeld r then p.answer r (.error .idempotencyKeyConflict)
  else ({ p with jobs := p.jobs ++ [newRow r id now] }.record (.submitted id)).answer r (.ok id)

/-! ## Status changes -/

/-- What a status change writes besides the status. -/
structure Payload where
  progress : Option String
  result : Option String
  error : Option String
  build : Option String

def Payload.empty : Payload := ⟨none, none, none, none⟩

def moved (row : JobRow) (to_status : JobStatus) (c : Payload) (now : ℕ) : JobRow :=
  { row with
    status := to_status
    started_at := if to_status = .running then some now else row.started_at
    platform_build := if to_status = .running then c.build else row.platform_build
    finished_at := if to_status.terminal then some now else row.finished_at
    progress := c.progress.or row.progress
    result := c.result.or row.result
    error := c.error.or row.error }

/-- The check constraint `finished_after_started`. -/
def finishedAfterStarted (row : JobRow) : Bool := match row.started_at, row.finished_at with
  | some s, some f => s ≤ f
  | _, _ => true

def transition (id : UUID) (to_status : JobStatus) (c : Payload) (now : ℕ) :
    Except Refusal Platform := do
  let row ← require (p.get id) .notFound
  ensure (to_status ∈ validTransitions row.status)
    (if to_status = .cancelled then .jobNotCancellable else .validationFailed)
  ensure (finishedAfterStarted (moved row to_status c now) = true) .integrity
  return (p.put (moved row to_status c now)).record (.moved id row.status to_status)

/-- Mark a cancellation once. -/
def mark (row : JobRow) (now : ℕ) : Platform :=
  if row.cancellation_requested_at = none then
    (p.put { row with cancellation_requested_at := some now }).record (.cancellationRequested row.id)
  else p

def requestCancellation (id : UUID) (now : ℕ) : Except Refusal Platform := do
  let row ← require (p.get id) .notFound
  ensure (row.status.terminal = false) .jobNotCancellable
  if row.status = .queued then (p.mark row now).transition id .cancelled .empty now
  else return p.mark row now

/-! ## Deliveries -/

/-- `execute_job` on the row it read. -/
def pickUp (registered : JobKind → Bool) (id : UUID) : Delivery :=
  match p.get id with
  | none => .idle
  | some row =>
    if row.status ≠ .queued then .idle
    else if row.cancellation_requested_at.isSome then .cancel id
    else if registered row.kind then .start id
    else .fail id

inductive Outcome
  | returned (result : String)
  | cancelled
  | raised (error : String)

def Outcome.status : Outcome → JobStatus
  | .returned _ => .succeeded
  | .cancelled => .cancelled
  | .raised _ => .failed

def Outcome.payload : Outcome → Payload
  | .returned result => { Payload.empty with result := some result }
  | .cancelled => .empty
  | .raised error => { Payload.empty with error := some error }

def deliver (d : ℕ) (next : Delivery) : Platform :=
  { p with deliveries := Function.update p.deliveries d next }

def attempt (result : Except Refusal Platform) : Platform := match result with
  | .ok p' => p'
  | .error _ => p

/-- The next transaction of a delivery before its handler. The handler is called once the status
`running` is committed. -/
def advance (d : ℕ) (now : ℕ) (build error : String) : Option Platform := match p.deliveries d with
  | .cancel id => some ((p.deliver d .idle).attempt
      ((p.deliver d .idle).transition id .cancelled .empty now))
  | .fail id => some ((p.deliver d .idle).attempt
      ((p.deliver d .idle).transition id .failed { Payload.empty with error := some error } now))
  | .start id => match p.transition id .running { Payload.empty with build := some build } now with
    | .ok p' => some { p'.deliver d (.running id) with handled := p'.handled ++ [id] }
    | .error _ => some (p.deliver d .idle)
  | .idle | .running _ => none

/-- `_write_progress`: an update by id, whatever the status. -/
def writeProgress (id : UUID) (progress : String) (now : ℕ) : Platform := match p.get id with
  | some row => p.put { row with progress := some progress, progress_at := some now }
  | none => p

/-! ## Steps -/

inductive Event
  | lookup (client : ℕ) (r : Submission)
  | insert (client : ℕ) (id : UUID) (now : ℕ)
  | transition (id : UUID) (to_status : JobStatus) (c : Payload) (now : ℕ)
  | requestCancellation (id : UUID) (now : ℕ)
  | deliver (d : ℕ) (id : UUID)
  | advance (d : ℕ) (now : ℕ) (build error : String)
  | progress (d : ℕ) (progress : String) (now : ℕ)
  | finish (d : ℕ) (outcome : Outcome) (now : ℕ)
  | crash (d : ℕ)

def step (registered : JobKind → Bool) (p : Platform) : Event → Option Platform
  | .lookup client r => if p.submissions client = none then some (p.lookup client r) else none
  | .insert client id now => (p.submissions client).bind fun r =>
      if p.get id = none then some (p.insert client r id now) else none
  | .transition id to_status c now => some (p.attempt (p.transition id to_status c now))
  | .requestCancellation id now => some (p.attempt (p.requestCancellation id now))
  | .deliver d id =>
      if p.deliveries d = .idle then some (p.deliver d (p.pickUp registered id)) else none
  | .advance d now build error => p.advance d now build error
  | .progress d progress now => match p.deliveries d with
    | .running id => some (p.writeProgress id progress now)
    | _ => none
  | .finish d outcome now => match p.deliveries d with
    | .running id => some ((p.deliver d .idle).attempt
        ((p.deliver d .idle).transition id outcome.status outcome.payload now))
    | _ => none
  | .crash d => some (p.deliver d .idle)

end Platform

end GiPricing.Jobs
