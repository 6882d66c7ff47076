import GiPricing.Jobs.Runs
import GiPricing.Order.SortedBy

/-! # The transactional outbox

A publish intent is committed with its job, and relays send the pending intents to the broker. A
relay marks its rows in the transaction it sends them from, so a rollback keeps the messages and
loses the marks.
-/

namespace GiPricing.Jobs

open Transition

inductive JobQueue
  | default
  | compute
  | scoring
  | io
  deriving DecidableEq

def defaultQueueForKind : JobKind → JobQueue
  | .datasetIngest | .blobPromote | .exportRegulatory | .blobGc => .io
  | .ratingCompile | .monitorRun | .dossierGenerate => .default
  | .scoreBatch | .scoreTraceProduce => .scoring
  | .datasetValidate | .datasetProfile | .datasetDerive | .modelFit | .modelTransparency
  | .modelBacktest | .modelCompare | .perilStructureReconcile | .objectiveCertify | .metricCertify
  | .ratingRegression | .rateTableDiff | .rateTableDiffCells | .dislocationRun | .optimisationRun
  | .gippCheck => .compute

namespace Outbox

inductive OutboxStatus
  | pending
  | published
  | failed
  deriving DecidableEq

structure Payload where
  job_id : UUID
  kind : JobKind
  trace_id : Option String
  deriving DecidableEq

structure Message where
  task : String
  queue : JobQueue
  payload : Payload
  deriving DecidableEq

/-- A publish intent. `uq_outbox_job_id` makes the job its key. -/
structure OutboxRow where
  job_id : UUID
  queue : JobQueue
  task : String
  payload : Payload
  status : OutboxStatus
  attempts : ℕ
  last_error : Option String
  created_at : ℕ
  published_at : Option ℕ
  deriving DecidableEq

def OutboxRow.message (row : OutboxRow) : Message := ⟨row.task, row.queue, row.payload⟩

/-- The open transaction of a relay: the rows it has still to send, and those it has handled, as it
will commit them. -/
structure Pass where
  relay : ℕ
  todo : List OutboxRow
  done : List OutboxRow

def Pass.locked (p : Pass) : List UUID := (p.done ++ p.todo).map OutboxRow.job_id

/-- How a publish ends. One that raises may have reached the broker. -/
inductive Publish
  | sent
  | raised (error : String) (reached : Bool)
  deriving DecidableEq

/-- The tables, the open relays and the broker. `unmarked` is the history of the sends whose mark
was not kept; nothing reads it. -/
structure World where
  platform : Platform
  outbox : List OutboxRow
  passes : List Pass
  broker : List Message
  unmarked : List UUID

def World.init : World := ⟨.init, [], [], [], []⟩

def celeryTask : String := "app.worker.run_job"

/-- `enqueue`, as `submit` calls it. -/
def enqueue (r : Submission) (id : UUID) (queue : Option JobQueue) (trace_id : Option String)
    (now : ℕ) : OutboxRow where
  job_id := id
  queue := queue.getD (defaultQueueForKind r.kind)
  task := celeryTask
  payload := ⟨id, r.kind, trace_id⟩
  status := .pending
  attempts := 0
  last_error := none
  created_at := now
  published_at := none

/-- The row after a publish. -/
def settled (row : OutboxRow) (now : ℕ) : Publish → OutboxRow
  | .sent => { row with status := .published, published_at := some now }
  | .raised error _ =>
    { row with attempts := row.attempts + 1, last_error := some (error.take 2000).toString }

def Publish.reaches : Publish → Bool
  | .sent => true
  | .raised _ reached => reached

namespace World

variable (w : World)

def locked (id : UUID) : Bool := (w.passes.flatMap Pass.locked).contains id

/-- The rows of `relay_once`: the oldest pending ones that no other relay has locked. -/
def claimable (batch_size : ℕ) : List OutboxRow :=
  (sortedBy OutboxRow.created_at
    (w.outbox.filter fun row => row.status = .pending ∧ w.locked row.job_id = false)).take batch_size

def claim (relay batch_size : ℕ) : World :=
  { w with passes := ⟨relay, w.claimable batch_size, []⟩ :: w.passes }

def without (relay : ℕ) : List Pass := w.passes.filter fun p => p.relay ≠ relay

/-- The next row of a relay is sent. -/
def publish (p : Pass) (row : OutboxRow) (rest : List OutboxRow) (outcome : Publish) (now : ℕ) :
    World :=
  { w with
    passes := ⟨p.relay, rest, p.done ++ [settled row now outcome]⟩ :: w.without p.relay
    broker := if outcome.reaches then w.broker ++ [row.message] else w.broker
    unmarked := if outcome ≠ .sent ∧ outcome.reaches then w.unmarked ++ [row.job_id]
      else w.unmarked }

def kept (rows outbox : List OutboxRow) : List OutboxRow :=
  rows.foldl (fun outbox row => write OutboxRow.job_id row outbox) outbox

def commit (p : Pass) : World :=
  { w with outbox := kept p.done w.outbox, passes := w.without p.relay }

def rollback (p : Pass) : World :=
  { w with
    passes := w.without p.relay
    unmarked := w.unmarked ++
      (p.done.filter fun row => row.status = .published).map OutboxRow.job_id }

end World

inductive Event
  | platform (e : Platform.Event)
  | submit (client : ℕ) (id : UUID) (now : ℕ) (queue : Option JobQueue) (trace_id : Option String)
  | claim (relay batch_size : ℕ)
  | publish (relay : ℕ) (outcome : Publish) (now : ℕ)
  | commit (relay : ℕ)
  | rollback (relay : ℕ)

/-- A worker is handed a job by a message that the broker was sent, as often as the broker likes. -/
def handed (w : World) : Platform.Event → Bool
  | .insert .. => false
  | .deliver _ id => w.broker.any fun m => m.payload.job_id = id
  | _ => true

def step (registered : JobKind → Bool) (w : World) : Event → Option World
  | .platform e =>
    if handed w e then (w.platform.step registered e).map fun p => { w with platform := p } else none
  | .submit client id now queue trace_id => (w.platform.submissions client).bind fun r =>
      (w.platform.step registered (.insert client id now)).map fun p =>
        { w with
          platform := p
          outbox := if w.platform.keyHeld r then w.outbox
            else w.outbox ++ [enqueue r id queue trace_id now] }
  | .claim relay batch_size =>
    if w.passes.any fun p => p.relay = relay then none else some (w.claim relay batch_size)
  | .publish relay outcome now => (w.passes.find? fun p => p.relay = relay).bind fun p =>
      match p.todo with
      | [] => none
      | row :: rest => some (w.publish p row rest outcome now)
  | .commit relay => (w.passes.find? fun p => p.relay = relay).bind fun p =>
      if p.todo = [] then some (w.commit p) else none
  | .rollback relay => (w.passes.find? fun p => p.relay = relay).map w.rollback

/-! ## Rows and their marks -/

/-- The row as some publish of it leaves it. -/
def Settles (old row : OutboxRow) : Prop := ∃ now outcome, row = settled old now outcome

@[simp] theorem job_id_settled (row : OutboxRow) (now : ℕ) (outcome : Publish) :
    (settled row now outcome).job_id = row.job_id := by
  cases outcome <;> rfl

@[simp] theorem message_settled (row : OutboxRow) (now : ℕ) (outcome : Publish) :
    (settled row now outcome).message = row.message := by
  cases outcome <;> rfl

@[simp] theorem payload_settled (row : OutboxRow) (now : ℕ) (outcome : Publish) :
    (settled row now outcome).payload = row.payload := by
  cases outcome <;> rfl

theorem Settles.job_id {old row : OutboxRow} (h : Settles old row) : row.job_id = old.job_id := by
  obtain ⟨now, outcome, rfl⟩ := h
  exact job_id_settled ..

/-- `published_iff_timestamped`. -/
def Stamped (row : OutboxRow) : Prop := row.status = .published ↔ row.published_at.isSome = true

theorem stamped_settled {row : OutboxRow} (h : Stamped row) (now : ℕ) (outcome : Publish) :
    Stamped (settled row now outcome) := by
  cases outcome with
  | sent => simp [Stamped, settled]
  | raised error reached => exact h

theorem unfailed_settled {row : OutboxRow} (h : row.status ≠ .failed) (now : ℕ)
    (outcome : Publish) : (settled row now outcome).status ≠ .failed := by
  cases outcome with
  | sent => simp [settled]
  | raised error reached => exact h

def marks (id : UUID) (row : OutboxRow) : Bool := row.job_id = id ∧ row.status = .published

theorem marks_pending {id : UUID} {row : OutboxRow} (h : row.status = .pending) :
    marks id row = false := by
  simp [marks, h]

theorem marks_settled {id : UUID} {row : OutboxRow} (h : row.status = .pending) (now : ℕ)
    (outcome : Publish) : marks id (settled row now outcome) =
      decide (row.job_id = id ∧ outcome = .sent) := by
  cases outcome <;> simp [marks, settled, h]

namespace World

variable {w : World} {p : Pass} {rows outbox : List OutboxRow} {row old : OutboxRow} {id : UUID}

/-- The rows kept once their handled copies are written back. -/
structure Handled (rows outbox : List OutboxRow) : Prop where
  ids : (outbox.map OutboxRow.job_id).Nodup
  apart : (rows.map OutboxRow.job_id).Nodup
  settles : ∀ row ∈ rows, ∃ old ∈ outbox, old.status = .pending ∧ Settles old row

theorem job_ids_kept : (kept rows outbox).map OutboxRow.job_id = outbox.map OutboxRow.job_id := by
  induction rows generalizing outbox with
  | nil => rfl
  | cons row rows ih => exact ih.trans keys_write

theorem Handled.tail (h : Handled (row :: rows) outbox) :
    Handled rows (write OutboxRow.job_id row outbox) where
  ids := by
    rw [keys_write]
    exact h.ids
  apart := (List.nodup_cons.mp h.apart).2
  settles r hr := by
    obtain ⟨old, hold, hpending, hsettles⟩ := h.settles r (List.mem_cons_of_mem _ hr)
    obtain ⟨old', hold', -, hsettles'⟩ := h.settles row List.mem_cons_self
    refine ⟨old, (mem_write hold' hsettles'.job_id).mpr (Or.inr ⟨hold, fun heq => ?_⟩), hpending,
      hsettles⟩
    rw [← hsettles.job_id, ← hsettles'.job_id] at heq
    exact (List.nodup_cons.mp h.apart).1 (List.mem_map.mpr ⟨r, hr, heq⟩)

theorem Handled.mem_kept (h : Handled rows outbox) : row ∈ kept rows outbox ↔
    row ∈ rows ∨ row ∈ outbox ∧ row.job_id ∉ rows.map OutboxRow.job_id := by
  induction rows generalizing outbox with
  | nil => simp [kept]
  | cons r rows ih =>
    obtain ⟨old, hold, -, hsettles⟩ := h.settles r List.mem_cons_self
    have hr := (List.nodup_cons.mp h.apart).1
    have hcons : kept (r :: rows) outbox = kept rows (write OutboxRow.job_id r outbox) := rfl
    rw [hcons, ih h.tail, mem_write hold hsettles.job_id, ← hsettles.job_id, List.mem_cons,
      List.map_cons, List.mem_cons]
    constructor
    · rintro (hmem | ⟨rfl | ⟨hmem, hne⟩, hnot⟩)
      · exact Or.inl (Or.inr hmem)
      · exact Or.inl (Or.inl rfl)
      · exact Or.inr ⟨hmem, by simp [hne, hnot]⟩
    · rintro ((rfl | hmem) | ⟨hmem, hnot⟩)
      · exact Or.inr ⟨Or.inl rfl, hr⟩
      · exact Or.inl hmem
      · rw [not_or] at hnot
        exact Or.inr ⟨Or.inr ⟨hmem, hnot.1⟩, hnot.2⟩

theorem Handled.countP_kept (h : Handled rows outbox) {q : OutboxRow → Bool}
    (hq : ∀ row, row.status = .pending → q row = false) :
    (kept rows outbox).countP q = outbox.countP q + rows.countP q := by
  induction rows generalizing outbox with
  | nil => rfl
  | cons r rows ih =>
    obtain ⟨old, hold, hpending, hsettles⟩ := h.settles r List.mem_cons_self
    have hwrite := countP_write (q := q) h.ids hold hsettles.job_id
    have hcons : kept (r :: rows) outbox = kept rows (write OutboxRow.job_id r outbox) := rfl
    rw [if_neg (by simp [hq old hpending])] at hwrite
    rw [hcons, ih h.tail, List.countP_cons]
    omega

theorem perm_without (hrelays : (w.passes.map Pass.relay).Nodup) (hp : p ∈ w.passes) :
    w.passes.Perm (p :: w.without p.relay) := perm_cons_filter hrelays hp

end World

/-! ## The invariant -/

open World

def copies (w : World) (id : UUID) : ℕ := w.broker.countP fun m => m.payload.job_id = id

def markCount (w : World) (id : UUID) : ℕ :=
  w.outbox.countP (marks id) + (w.passes.flatMap Pass.done).countP (marks id)

structure Inv (w : World) : Prop where
  jobs : Jobs.Inv w.platform
  intents : w.outbox.map OutboxRow.job_id = w.platform.jobs.map JobRow.id
  own : ∀ row ∈ w.outbox, row.payload.job_id = row.job_id
  sent : ∀ m ∈ w.broker, ∃ row ∈ w.outbox, row.message = m
  stamped : ∀ row ∈ w.outbox, Stamped row
  unfailed : ∀ row ∈ w.outbox, row.status ≠ .failed
  relays : (w.passes.map Pass.relay).Nodup
  apart : (w.passes.flatMap Pass.locked).Nodup
  todo : ∀ p ∈ w.passes, ∀ row ∈ p.todo, row ∈ w.outbox ∧ row.status = .pending
  done : ∀ p ∈ w.passes, ∀ row ∈ p.done, ∃ old ∈ w.outbox, old.status = .pending ∧ Settles old row
  accounts : ∀ id, copies w id = markCount w id + w.unmarked.count id

theorem inv_init : Inv .init where
  jobs := Jobs.inv_init
  intents := rfl
  own := by rintro row ⟨⟩
  sent := by rintro m ⟨⟩
  stamped := by rintro row ⟨⟩
  unfailed := by rintro row ⟨⟩
  relays := List.nodup_nil
  apart := List.nodup_nil
  todo := by rintro p ⟨⟩
  done := by rintro p ⟨⟩
  accounts _ := rfl

variable {registered : JobKind → Bool} {w w' : World} {p : Pass} {row : OutboxRow}

theorem Inv.ids (h : Inv w) : (w.outbox.map OutboxRow.job_id).Nodup := by
  rw [h.intents]
  exact h.jobs.ids

theorem Inv.handled (h : Inv w) (hp : p ∈ w.passes) : Handled p.done w.outbox where
  ids := h.ids
  apart := by
    have hlocked := (List.nodup_flatMap.mp h.apart).1 p hp
    rw [Pass.locked, List.map_append] at hlocked
    exact (List.nodup_append.mp hlocked).1
  settles := h.done p hp

theorem Inv.locked_apart (h : Inv w) (hp : p ∈ w.passes) {q : Pass} (hq : q ∈ w.without p.relay)
    {id : UUID} (hid : id ∈ q.locked) : id ∉ p.locked := by
  have hperm := ((perm_without h.relays hp).flatMap_right Pass.locked).nodup_iff.mp h.apart
  rw [List.flatMap_cons] at hperm
  exact fun hid' => (List.nodup_append.mp hperm).2.2 id hid' id
    (List.mem_flatMap.mpr ⟨q, hq, hid⟩) rfl

theorem mem_of_without {q : Pass} {relay : ℕ} (hq : q ∈ w.without relay) : q ∈ w.passes :=
  List.mem_of_mem_filter hq

theorem Inv.markCount_eq (h : Inv w) (hp : p ∈ w.passes) (id : UUID) :
    markCount w id = w.outbox.countP (marks id) +
      (p.done.countP (marks id) + ((w.without p.relay).flatMap Pass.done).countP (marks id)) := by
  rw [markCount, ((perm_without h.relays hp).flatMap_right Pass.done).countP_eq, List.flatMap_cons,
    List.countP_append]

theorem Inv.others (h : Inv w) (hp : p ∈ w.passes) : ((w.without p.relay).map Pass.relay).Nodup ∧
    ((w.without p.relay).flatMap Pass.locked).Nodup := by
  refine ⟨h.relays.sublist (List.filter_sublist.map _), ?_⟩
  have hapart := ((perm_without h.relays hp).flatMap_right Pass.locked).nodup_iff.mp h.apart
  rw [List.flatMap_cons] at hapart
  exact (List.nodup_append.mp hapart).2.1

theorem Inv.row_of_job (h : Inv w) {job : JobRow} (hjob : job ∈ w.platform.jobs) :
    ∃ row ∈ w.outbox, row.job_id = job.id := by
  have hmem : job.id ∈ w.outbox.map OutboxRow.job_id := by
    rw [h.intents]
    exact List.mem_map_of_mem hjob
  exact List.mem_map.mp hmem

theorem Inv.platform (h : Inv w) {q : Platform} (hjobs : Jobs.Inv q)
    (hids : q.jobs.map JobRow.id = w.platform.jobs.map JobRow.id) :
    Inv { w with platform := q } where
  jobs := hjobs
  intents := h.intents.trans hids.symm
  own := h.own
  sent := h.sent
  stamped := h.stamped
  unfailed := h.unfailed
  relays := h.relays
  apart := h.apart
  todo := h.todo
  done := h.done
  accounts := h.accounts

theorem Inv.submit (h : Inv w) {q : Platform} (hjobs : Jobs.Inv q) {r : Submission} {id now : ℕ}
    {queue : Option JobQueue} {trace_id : Option String}
    (hids : q.jobs.map JobRow.id = w.platform.jobs.map JobRow.id ++ [id]) :
    Inv { w with platform := q, outbox := w.outbox ++ [enqueue r id queue trace_id now] } where
  jobs := hjobs
  intents := by
    rw [hids, List.map_append, h.intents]
    rfl
  own row hrow := by
    rcases List.mem_append.mp hrow with hrow | hrow
    · exact h.own row hrow
    · rw [List.mem_singleton.mp hrow]
      rfl
  sent m hm := by
    obtain ⟨row, hrow, rfl⟩ := h.sent m hm
    exact ⟨row, List.mem_append_left _ hrow, rfl⟩
  stamped row hrow := by
    rcases List.mem_append.mp hrow with hrow | hrow
    · exact h.stamped row hrow
    · rw [List.mem_singleton.mp hrow]
      simp [Stamped, enqueue]
  unfailed row hrow := by
    rcases List.mem_append.mp hrow with hrow | hrow
    · exact h.unfailed row hrow
    · rw [List.mem_singleton.mp hrow]
      simp [enqueue]
  relays := h.relays
  apart := h.apart
  todo p hp row hrow :=
    have := h.todo p hp row hrow
    ⟨List.mem_append_left _ this.1, this.2⟩
  done p hp row hrow :=
    have ⟨old, hold, hsettles⟩ := h.done p hp row hrow
    ⟨old, List.mem_append_left _ hold, hsettles⟩
  accounts id' := by
    have hnew : marks id' (enqueue r id queue trace_id now) = false := marks_pending rfl
    have := h.accounts id'
    simp only [copies, markCount, List.countP_append, List.countP_singleton, hnew] at this ⊢
    exact this

theorem mem_claimable {batch_size : ℕ} (h : row ∈ w.claimable batch_size) :
    row ∈ w.outbox ∧ row.status = .pending ∧ row.job_id ∉ w.passes.flatMap Pass.locked := by
  have hrow := List.mem_filter.mp ((mem_sortedBy _).mp (List.mem_of_mem_take h))
  simpa [locked] using hrow

theorem claimable_nodup (h : Inv w) (batch_size : ℕ) :
    ((w.claimable batch_size).map OutboxRow.job_id).Nodup := by
  refine List.Nodup.sublist ((List.take_sublist ..).map _) ?_
  rw [((sortedBy_perm _ _).map OutboxRow.job_id).nodup_iff]
  exact List.Nodup.sublist ((List.filter_sublist ..).map _) h.ids

theorem Inv.claim (h : Inv w) {relay batch_size : ℕ} (hrelay : ∀ p ∈ w.passes, p.relay ≠ relay) :
    Inv (w.claim relay batch_size) where
  jobs := h.jobs
  intents := h.intents
  own := h.own
  sent := h.sent
  stamped := h.stamped
  unfailed := h.unfailed
  relays := List.nodup_cons.mpr ⟨fun hmem => by
    obtain ⟨p, hp, heq⟩ := List.mem_map.mp hmem
    exact hrelay p hp heq, h.relays⟩
  apart := by
    have hnew : ∀ id ∈ (w.claimable batch_size).map OutboxRow.job_id,
        id ∉ w.passes.flatMap Pass.locked := by
      intro id hid
      obtain ⟨row, hrow, rfl⟩ := List.mem_map.mp hid
      exact (mem_claimable hrow).2.2
    exact List.nodup_append.mpr ⟨claimable_nodup h batch_size, h.apart,
      fun a ha b hb heq => hnew a ha (heq ▸ hb)⟩
  todo p hp row hrow := by
    rcases List.mem_cons.mp hp with rfl | hp
    · exact ⟨(mem_claimable hrow).1, (mem_claimable hrow).2.1⟩
    · exact h.todo p hp row hrow
  done p hp row hrow := by
    rcases List.mem_cons.mp hp with rfl | hp
    · cases hrow
    · exact h.done p hp row hrow
  accounts := h.accounts

theorem Inv.publish (h : Inv w) {rest : List OutboxRow} (hp : p ∈ w.passes)
    (htodo : p.todo = row :: rest) (outcome : Publish) (now : ℕ) :
    Inv (w.publish p row rest outcome now) := by
  obtain ⟨hrow, hpending⟩ := h.todo p hp row (htodo ▸ List.mem_cons_self)
  have hperm := perm_without h.relays hp
  have hlocked : (Pass.mk p.relay rest (p.done ++ [settled row now outcome])).locked = p.locked := by
    simp [Pass.locked, htodo]
  refine ⟨h.jobs, h.intents, h.own, ?_, h.stamped, h.unfailed, ?_, ?_, ?_, ?_, fun id => ?_⟩
  · intro m hm
    simp only [World.publish] at hm
    split_ifs at hm with hreach
    · rcases List.mem_append.mp hm with hm | hm
      · exact h.sent m hm
      · exact ⟨row, hrow, (List.mem_singleton.mp hm).symm⟩
    · exact h.sent m hm
  · exact (hperm.map Pass.relay).nodup_iff.mp h.relays
  · have := (hperm.flatMap_right Pass.locked).nodup_iff.mp h.apart
    rw [List.flatMap_cons] at this
    simpa only [World.publish, List.flatMap_cons, hlocked] using this
  · intro q hq r hr
    rcases List.mem_cons.mp hq with rfl | hq
    · exact h.todo p hp r (htodo ▸ List.mem_cons_of_mem _ hr)
    · exact h.todo q (mem_of_without hq) r hr
  · intro q hq r hr
    rcases List.mem_cons.mp hq with rfl | hq
    · rcases List.mem_append.mp hr with hr | hr
      · exact h.done p hp r hr
      · exact ⟨row, hrow, hpending, now, outcome, List.mem_singleton.mp hr⟩
    · exact h.done q (mem_of_without hq) r hr
  · have haccount := h.accounts id
    have hown : row.message.payload.job_id = row.job_id := h.own row hrow
    rw [h.markCount_eq hp] at haccount
    simp only [copies, markCount, World.publish, List.flatMap_cons, List.countP_append,
      List.countP_singleton, marks_settled hpending] at haccount ⊢
    by_cases hid : row.job_id = id <;>
      cases outcome with
      | sent => simp [Publish.reaches, hown, hid]; omega
      | raised error reached => cases reached <;> simp [Publish.reaches, hown, hid] <;> omega

theorem Inv.rollback (h : Inv w) (hp : p ∈ w.passes) : Inv (w.rollback p) := by
  refine ⟨h.jobs, h.intents, h.own, h.sent, h.stamped, h.unfailed, (h.others hp).1, (h.others hp).2,
    fun q hq => ?_, fun q hq => ?_, fun id => ?_⟩
  · exact h.todo q (mem_of_without hq)
  · exact h.done q (mem_of_without hq)
  · have haccount := h.accounts id
    have hlost : ((p.done.filter fun row => row.status = .published).map OutboxRow.job_id).count id =
        p.done.countP (marks id) := by
      rw [List.count, List.countP_map, List.countP_filter]
      exact List.countP_congr fun row _ => by simp [marks]
    rw [h.markCount_eq hp] at haccount
    simp only [copies, markCount, World.rollback, List.count_append, hlost] at haccount ⊢
    omega

theorem Inv.commit (h : Inv w) (hp : p ∈ w.passes) : Inv (w.commit p) := by
  have hhandled := h.handled hp
  have hstays : ∀ q ∈ w.without p.relay, ∀ old ∈ w.outbox, old.job_id ∈ q.locked →
      old ∈ kept p.done w.outbox := by
    intro q hq old hold hlocked
    refine hhandled.mem_kept.mpr (Or.inr ⟨hold, fun hdone => ?_⟩)
    refine h.locked_apart hp hq hlocked ?_
    rw [Pass.locked, List.map_append]
    exact List.mem_append_left _ hdone
  have horigin : ∀ row ∈ kept p.done w.outbox, ∃ old ∈ w.outbox, row = old ∨ Settles old row := by
    intro row hrow
    rcases hhandled.mem_kept.mp hrow with hrow | ⟨hrow, -⟩
    · obtain ⟨old, hold, -, hsettles⟩ := h.done p hp row hrow
      exact ⟨old, hold, Or.inr hsettles⟩
    · exact ⟨row, hrow, Or.inl rfl⟩
  refine ⟨h.jobs, ?_, fun row hrow => ?_, fun m hm => ?_, fun row hrow => ?_, fun row hrow => ?_,
    (h.others hp).1, (h.others hp).2, fun q hq row hrow => ?_, fun q hq row hrow => ?_, fun id => ?_⟩
  · exact job_ids_kept.trans h.intents
  · obtain ⟨old, hold, rfl | ⟨now, outcome, rfl⟩⟩ := horigin row hrow
    · exact h.own row hold
    · simpa using h.own old hold
  · obtain ⟨row, hrow, rfl⟩ := h.sent m hm
    by_cases hdone : row.job_id ∈ p.done.map OutboxRow.job_id
    · obtain ⟨new, hnew, heq⟩ := List.mem_map.mp hdone
      obtain ⟨old, hold, -, hsettles⟩ := h.done p hp new hnew
      obtain rfl : old = row :=
        List.inj_on_of_nodup_map h.ids hold hrow (hsettles.job_id.symm.trans heq)
      obtain ⟨now, outcome, rfl⟩ := hsettles
      exact ⟨_, hhandled.mem_kept.mpr (Or.inl hnew), message_settled ..⟩
    · exact ⟨row, hhandled.mem_kept.mpr (Or.inr ⟨hrow, hdone⟩), rfl⟩
  · obtain ⟨old, hold, rfl | ⟨now, outcome, rfl⟩⟩ := horigin row hrow
    · exact h.stamped row hold
    · exact stamped_settled (h.stamped old hold) now outcome
  · obtain ⟨old, hold, rfl | ⟨now, outcome, rfl⟩⟩ := horigin row hrow
    · exact h.unfailed row hold
    · exact unfailed_settled (h.unfailed old hold) now outcome
  · obtain ⟨hmem, hpending⟩ := h.todo q (mem_of_without hq) row hrow
    refine ⟨hstays q hq row hmem ?_, hpending⟩
    exact List.mem_map_of_mem (List.mem_append_right _ hrow)
  · obtain ⟨old, hold, hpending, hsettles⟩ := h.done q (mem_of_without hq) row hrow
    refine ⟨old, hstays q hq old hold ?_, hpending, hsettles⟩
    rw [← hsettles.job_id]
    exact List.mem_map_of_mem (List.mem_append_left _ hrow)
  · have haccount := h.accounts id
    rw [h.markCount_eq hp] at haccount
    have hkept := hhandled.countP_kept (q := marks id) fun _ => marks_pending
    simp only [copies, markCount, World.commit] at haccount ⊢
    omega

/-! ## Steps -/

theorem ids_transition {q q' : Platform} {id now : ℕ} {to_status : JobStatus} {c : Platform.Payload}
    (h : q.transition id to_status c now = .ok q') :
    q'.jobs.map JobRow.id = q.jobs.map JobRow.id := by
  obtain ⟨row, -, -, -, rfl⟩ := transition_eq_ok h
  exact keys_write

theorem ids_attempt {q : Platform} {result : Except Refusal Platform}
    (h : ∀ q', result = .ok q' → q'.jobs.map JobRow.id = q.jobs.map JobRow.id) :
    (q.attempt result).jobs.map JobRow.id = q.jobs.map JobRow.id := by
  cases result with
  | error e => rfl
  | ok q' => exact h q' rfl

theorem ids_mark {q : Platform} (row : JobRow) (now : ℕ) :
    (q.mark row now).jobs.map JobRow.id = q.jobs.map JobRow.id := by
  rw [Platform.mark]
  split_ifs
  · exact keys_write
  · rfl

theorem ids_cancellation {q q' : Platform} {id now : ℕ}
    (h : q.requestCancellation id now = .ok q') :
    q'.jobs.map JobRow.id = q.jobs.map JobRow.id := by
  simp only [Platform.requestCancellation, Failure.require_bind_eq_ok,
    Failure.ensure_bind_eq_ok] at h
  obtain ⟨row, -, -, h⟩ := h
  split_ifs at h
  · exact (ids_transition h).trans (ids_mark row now)
  · rw [← Failure.pure_eq_ok.mp h]
    exact ids_mark row now

/-- Only an insert adds a job. -/
theorem ids_step {q q' : Platform} {e : Platform.Event} (he : ∀ client id now, e ≠ .insert client id now)
    (h : q.step registered e = some q') : q'.jobs.map JobRow.id = q.jobs.map JobRow.id := by
  cases e with
  | lookup client r =>
    simp only [Platform.step] at h
    split_ifs at h
    cases h
    rw [Platform.lookup]
    split <;> rfl
  | insert client id now => exact absurd rfl (he client id now)
  | transition id to_status c now =>
    cases h
    exact ids_attempt fun q' => ids_transition
  | requestCancellation id now =>
    cases h
    exact ids_attempt fun q' => ids_cancellation
  | deliver d id =>
    simp only [Platform.step] at h
    split_ifs at h
    cases h
    rfl
  | advance d now build error =>
    simp only [Platform.step, Platform.advance] at h
    split at h
    case h_1 =>
      cases h
      exact ids_attempt fun q' => ids_transition
    case h_2 =>
      cases h
      exact ids_attempt fun q' => ids_transition
    case h_3 =>
      split at h
      case h_1 q'' hq =>
        cases h
        exact (ids_transition hq : q''.jobs.map JobRow.id = _)
      case h_2 =>
        cases h
        rfl
    case h_4 => cases h
    case h_5 => cases h
  | progress d progress now =>
    simp only [Platform.step] at h
    split at h <;> cases h
    rw [Platform.writeProgress]
    split
    · exact keys_write
    · rfl
  | finish d outcome now =>
    simp only [Platform.step] at h
    split at h <;> cases h
    exact ids_attempt fun q' => ids_transition
  | crash d =>
    cases h
    rfl

theorem ids_insert {q q' : Platform} {client id now : ℕ} {r : Submission}
    (hr : q.submissions client = some r)
    (h : q.step registered (.insert client id now) = some q') : q'.jobs.map JobRow.id =
      q.jobs.map JobRow.id ++ if q.keyHeld r then [] else [id] := by
  simp only [Platform.step, hr, Option.bind_some] at h
  split_ifs at h
  cases h
  have hheld : Platform.keyHeld
      { q with submissions := Function.update q.submissions client none } r = q.keyHeld r := rfl
  simp only [Platform.insert, hheld]
  split_ifs with hkey
  · simp [Platform.answer]
  · simp [Platform.answer, Platform.record, Platform.newRow]

theorem jobs_step (h : Inv w) {e : Platform.Event} {q : Platform}
    (hq : w.platform.step registered e = some q) : Jobs.Inv q :=
  (step_change h.jobs.toKeyed hq).inv h.jobs

theorem pass_of_find {relay : ℕ} (h : w.passes.find? (fun p => p.relay = relay) = some p) :
    p ∈ w.passes ∧ p.relay = relay :=
  ⟨List.mem_of_find?_eq_some h, by simpa using List.find?_some h⟩

theorem inv_step (w : World) (e : Event) (w' : World) (h : Inv w)
    (hstep : step registered w e = some w') : Inv w' := by
  cases e with
  | platform e =>
    simp only [step] at hstep
    split_ifs at hstep with hhanded
    obtain ⟨q, hq, rfl⟩ := Option.map_eq_some_iff.mp hstep
    have hinsert : ∀ client id now, e ≠ .insert client id now := by
      rintro client id now rfl
      cases hhanded
    exact h.platform (jobs_step h hq) (ids_step hinsert hq)
  | submit client id now queue trace_id =>
    obtain ⟨r, hr, hstep⟩ := Option.bind_eq_some_iff.mp hstep
    obtain ⟨q, hq, rfl⟩ := Option.map_eq_some_iff.mp hstep
    have hids := ids_insert hr hq
    have hjobs := jobs_step h hq
    split_ifs at hids ⊢ with hheld
    · exact h.platform hjobs (hids.trans (List.append_nil _))
    · exact h.submit hjobs hids
  | claim relay batch_size =>
    simp only [step] at hstep
    split_ifs at hstep with hopen
    cases hstep
    exact h.claim fun p hp heq => hopen (List.any_eq_true.mpr ⟨p, hp, decide_eq_true heq⟩)
  | publish relay outcome now =>
    obtain ⟨p, hp, hstep⟩ := Option.bind_eq_some_iff.mp hstep
    split at hstep
    · cases hstep
    · cases hstep
      exact h.publish (pass_of_find hp).1 ‹_› outcome now
  | commit relay =>
    obtain ⟨p, hp, hstep⟩ := Option.bind_eq_some_iff.mp hstep
    split_ifs at hstep
    cases hstep
    exact h.commit (pass_of_find hp).1
  | rollback relay =>
    obtain ⟨p, hp, rfl⟩ := Option.map_eq_some_iff.mp hstep
    exact h.rollback (pass_of_find hp).1

/-! ## What the broker has been sent -/

theorem countP_marks_le_one {rows : List OutboxRow} (h : (rows.map OutboxRow.job_id).Nodup) (id : UUID) :
    rows.countP (marks id) ≤ 1 := by
  have hcount := List.nodup_iff_count_le_one.mp h id
  rw [List.count, List.countP_map] at hcount
  refine (List.countP_mono_left fun row _ hmark => ?_).trans hcount
  simp only [marks, decide_eq_true_eq] at hmark
  simp [hmark.1]

theorem countP_marks_pos {rows : List OutboxRow} {id : UUID} (hrow : row ∈ rows)
    (hid : row.job_id = id) (hstatus : row.status = .published) : 0 < rows.countP (marks id) :=
  List.countP_pos_iff.mpr ⟨row, hrow, by simp [marks, hid, hstatus]⟩

theorem Inv.markCount_le (h : Inv w) (id : UUID) : markCount w id ≤ 1 := by
  have hdone : ((w.passes.flatMap Pass.done).map OutboxRow.job_id).Nodup := by
    rw [List.map_flatMap]
    obtain ⟨-, hapart⟩ := List.nodup_flatMap.mp h.apart
    refine List.nodup_flatMap.mpr ⟨fun p hp => (h.handled hp).apart, hapart.imp fun hpq => ?_⟩
    intro x hx hx'
    rw [Function.onFun, Pass.locked, Pass.locked, List.map_append, List.map_append] at hpq
    exact hpq (List.mem_append_left _ hx) (List.mem_append_left _ hx')
  have h₁ := countP_marks_le_one h.ids id
  have h₂ := countP_marks_le_one hdone id
  by_contra hmany
  obtain ⟨row, hrow, hmark⟩ := List.countP_pos_iff.mp (show 0 < w.outbox.countP (marks id) by
    rw [markCount] at hmany
    omega)
  obtain ⟨new, hnew, hmark'⟩ := List.countP_pos_iff.mp
    (show 0 < (w.passes.flatMap Pass.done).countP (marks id) by
      rw [markCount] at hmany
      omega)
  obtain ⟨p, hp, hnew⟩ := List.mem_flatMap.mp hnew
  obtain ⟨old, hold, hpending, hsettles⟩ := h.done p hp new hnew
  simp only [marks, decide_eq_true_eq] at hmark hmark'
  obtain rfl : old = row := List.inj_on_of_nodup_map h.ids hold hrow
    (by rw [← hsettles.job_id, hmark.1, hmark'.1])
  rw [hmark.2] at hpending
  cases hpending

/-- The broker was sent the messages of committed jobs only; no job is lost; and a job was sent once
for its mark, if it has one, and once for each mark that was not kept. -/
structure Accounted (w : World) : Prop where
  intents : w.outbox.map OutboxRow.job_id = w.platform.jobs.map JobRow.id
  sent : ∀ m ∈ w.broker, ∃ row ∈ w.outbox, row.job_id = m.payload.job_id ∧ row.message = m
  waits : ∀ job ∈ w.platform.jobs,
    (∃ row ∈ w.outbox, row.job_id = job.id ∧ row.status = .pending) ∨ 0 < copies w job.id
  accounts : ∀ id, copies w id = markCount w id + w.unmarked.count id
  once : ∀ id, markCount w id ≤ 1

theorem Inv.accounted (h : Inv w) : Accounted w where
  intents := h.intents
  sent m hm := by
    obtain ⟨row, hrow, rfl⟩ := h.sent m hm
    exact ⟨row, hrow, (h.own row hrow).symm, rfl⟩
  waits job hjob := by
    obtain ⟨row, hrow, hid⟩ := h.row_of_job hjob
    cases hstatus : row.status with
    | pending => exact Or.inl ⟨row, hrow, hid, hstatus⟩
    | published =>
      have hmark := countP_marks_pos hrow hid hstatus
      rw [h.accounts, markCount]
      exact Or.inr (by omega)
    | failed => exact absurd hstatus (h.unfailed row hrow)
  accounts := h.accounts
  once := h.markCount_le

def Event.Wastes : Event → Prop
  | .rollback _ | .publish _ (.raised _ true) _ => True
  | _ => False

theorem unmarked_step {e : Event} (hstep : step registered w e = some w') (he : ¬ e.Wastes) :
    w'.unmarked = w.unmarked := by
  cases e with
  | platform e =>
    simp only [step] at hstep
    split_ifs at hstep
    obtain ⟨q, -, rfl⟩ := Option.map_eq_some_iff.mp hstep
    rfl
  | submit client id now queue trace_id =>
    obtain ⟨r, -, hstep⟩ := Option.bind_eq_some_iff.mp hstep
    obtain ⟨q, -, rfl⟩ := Option.map_eq_some_iff.mp hstep
    rfl
  | claim relay batch_size =>
    simp only [step] at hstep
    split_ifs at hstep
    cases hstep
    rfl
  | publish relay outcome now =>
    obtain ⟨p, -, hstep⟩ := Option.bind_eq_some_iff.mp hstep
    split at hstep
    · cases hstep
    · cases hstep
      refine if_neg ?_
      rintro ⟨hraised, hreach⟩
      match outcome with
      | .sent => exact hraised rfl
      | .raised error true => exact he trivial
      | .raised error false => cases hreach
  | commit relay =>
    obtain ⟨p, -, hstep⟩ := Option.bind_eq_some_iff.mp hstep
    split_ifs at hstep
    cases hstep
    rfl
  | rollback relay => exact absurd trivial he

/-- At-least-once delivery, with every extra copy accounted for, over every interleaving of
submissions, relays, rollbacks and workers. -/
theorem outbox_accounts (registered : JobKind → Bool) (es : List Event) :
    Always (step registered)
      (fun w e w' => Accounted w' ∧ (¬ e.Wastes → w'.unmarked = w.unmarked)) .init es :=
  always_of_preserves (fun w e w' h hstep =>
    ⟨inv_step w e w' h hstep, (inv_step w e w' h hstep).accounted, unmarked_step hstep⟩) inv_init es

/-! ## The lifecycle behind the outbox -/

/-- The event of the job lifecycle. -/
def Event.project : Event → Option Platform.Event
  | .platform e => some e
  | .submit client id now _ _ => some (.insert client id now)
  | .claim .. | .publish .. | .commit .. | .rollback .. => none

theorem platform_step {e : Event} (hstep : step registered w e = some w') :
    run (Platform.step registered) w.platform e.project.toList = some w'.platform := by
  cases e with
  | platform e =>
    simp only [step] at hstep
    split_ifs at hstep
    obtain ⟨q, hq, rfl⟩ := Option.map_eq_some_iff.mp hstep
    exact run_cons_eq_some.mpr ⟨q, hq, rfl⟩
  | submit client id now queue trace_id =>
    obtain ⟨r, -, hstep⟩ := Option.bind_eq_some_iff.mp hstep
    obtain ⟨q, hq, rfl⟩ := Option.map_eq_some_iff.mp hstep
    exact run_cons_eq_some.mpr ⟨q, hq, rfl⟩
  | claim relay batch_size =>
    simp only [step] at hstep
    split_ifs at hstep
    cases hstep
    rfl
  | publish relay outcome now =>
    obtain ⟨p, -, hstep⟩ := Option.bind_eq_some_iff.mp hstep
    split at hstep <;> cases hstep
    rfl
  | commit relay =>
    obtain ⟨p, -, hstep⟩ := Option.bind_eq_some_iff.mp hstep
    split_ifs at hstep
    cases hstep
    rfl
  | rollback relay =>
    obtain ⟨p, -, rfl⟩ := Option.map_eq_some_iff.mp hstep
    rfl

theorem run_projects {es : List Event} (h : run (step registered) w es = some w') :
    run (Platform.step registered) w.platform (es.filterMap Event.project) = some w'.platform := by
  induction es generalizing w with
  | nil =>
    cases h
    rfl
  | cons e es ih =>
    obtain ⟨u, hu, h⟩ := run_cons_eq_some.mp h
    have hcons : (e :: es).filterMap Event.project =
        e.project.toList ++ es.filterMap Event.project := by
      cases hproject : e.project <;> simp [hproject]
    rw [hcons, run_append, platform_step hu]
    exact ih h

/-- A run with the outbox is a run of the lifecycle, in which every job that a worker is handed is
committed and is found. -/
theorem outbox_refines (registered : JobKind → Bool) (es : List Event) (w : World)
    (h : run (step registered) .init es = some w) :
    run (Platform.step registered) .init (es.filterMap Event.project) = some w.platform ∧
      Consistent w.platform ∧
      ∀ d id, handed w (.deliver d id) = true → ∃ job, w.platform.get id = some job := by
  have hinv : Inv w := run_preserves inv_step inv_init h
  refine ⟨run_projects h, hinv.jobs.consistent, fun d id hhanded => ?_⟩
  obtain ⟨m, hm, hid⟩ := List.any_eq_true.mp hhanded
  obtain ⟨row, hrow, hown, -⟩ := hinv.accounted.sent m hm
  have hmem : id ∈ w.platform.jobs.map JobRow.id := by
    rw [← hinv.intents, ← of_decide_eq_true hid, ← hown]
    exact List.mem_map_of_mem hrow
  obtain ⟨job, hjob, rfl⟩ := List.mem_map.mp hmem
  exact Option.isSome_iff_exists.mp (List.find?_isSome.mpr ⟨job, hjob, by simp⟩)

def fit : Submission := ⟨1, .modelFit, "\x7b\x7d", none⟩

def submitted : List Event := [.platform (.lookup 0 fit), .submit 0 7 0 none none]

/-- A relay publishes the message of the job, and a worker is handed it. -/
def delivered : List Event :=
  submitted ++ [.claim 3 1, .publish 3 .sent 5, .commit 3, .platform (.deliver 0 7)]

theorem outbox_refines_submitted : ∃ w, run (step fun _ => true) .init delivered = some w ∧
    run (Platform.step fun _ => true) .init (delivered.filterMap Event.project) =
      some w.platform ∧
    Consistent w.platform := by
  obtain ⟨w, hw⟩ : ∃ w, run (step fun _ => true) .init delivered = some w :=
    Option.isSome_iff_exists.mp (by with_unfolding_all decide)
  have h := outbox_refines (fun _ => true) delivered w hw
  exact ⟨w, hw, h.1, h.2.1⟩

/-! ## Whole passes of a relay -/

/-- `relay_once`, where the broker answers by the job and the batch is committed. -/
def relayOnce (relay batch_size now : ℕ) (answer : UUID → Publish) (w : World) : List Event :=
  .claim relay batch_size ::
    (w.claimable batch_size).map (fun row => .publish relay (answer row.job_id) now) ++
      [.commit relay]

def answered (now : ℕ) (answer : UUID → Publish) (row : OutboxRow) : OutboxRow :=
  settled row now (answer row.job_id)

/-- The world after `relay_once`. -/
def relayed (batch_size now : ℕ) (answer : UUID → Publish) (w : World) : World :=
  { w with
    outbox := w.outbox.map fun row =>
      if row ∈ w.claimable batch_size then answered now answer row else row
    broker := w.broker ++ ((w.claimable batch_size).filter fun row =>
      (answer row.job_id).reaches).map OutboxRow.message
    unmarked := w.unmarked ++ ((w.claimable batch_size).filter fun row =>
      answer row.job_id ≠ .sent ∧ (answer row.job_id).reaches).map OutboxRow.job_id }

/-- The relay on its own, pass after pass. -/
def relayPasses (relay batch_size now : ℕ) (answer : UUID → Publish) : ℕ → World → List Event
  | 0, _ => []
  | n + 1, w => relayOnce relay batch_size now answer w ++
      relayPasses relay batch_size now answer n (relayed batch_size now answer w)

variable {relay batch_size now n : ℕ} {answer : UUID → Publish}

@[simp] theorem job_id_answered : (answered now answer row).job_id = row.job_id := by
  simp [answered]

theorem created_at_answered : (answered now answer row).created_at = row.created_at := by
  rw [answered]
  cases answer row.job_id <;> rfl

theorem run_publishes {todo done : List OutboxRow} {others : List Pass}
    (hpasses : w.passes = ⟨relay, todo, done⟩ :: others) (hothers : ∀ p ∈ others, p.relay ≠ relay) :
    run (step registered) w (todo.map fun row => .publish relay (answer row.job_id) now) =
      some { w with
        passes := ⟨relay, [], done ++ todo.map (answered now answer)⟩ :: others
        broker := w.broker ++
          (todo.filter fun row => (answer row.job_id).reaches).map OutboxRow.message
        unmarked := w.unmarked ++ (todo.filter fun row =>
          answer row.job_id ≠ .sent ∧ (answer row.job_id).reaches).map OutboxRow.job_id } := by
  induction todo generalizing w done with
  | nil => simp [run, ← hpasses]
  | cons row todo ih =>
    have hwithout : w.without relay = others := by
      rw [without, hpasses, List.filter_cons_of_neg (by simp)]
      exact List.filter_eq_self.mpr fun p hp => decide_eq_true (hothers p hp)
    have hstep : step registered w (.publish relay (answer row.job_id) now) =
        some (w.publish ⟨relay, row :: todo, done⟩ row todo (answer row.job_id) now) := by
      simp [step, hpasses]
    rw [List.map_cons, run, hstep, Option.bind_some,
      ih (w := w.publish ⟨relay, row :: todo, done⟩ row todo (answer row.job_id) now)
        (congrArg (_ :: ·) hwithout)]
    cases hanswer : answer row.job_id with
    | sent => simp [World.publish, answered, hanswer, Publish.reaches]
    | raised error reached =>
      cases reached <;> simp [World.publish, answered, hanswer, Publish.reaches]

theorem kept_map {f : OutboxRow → OutboxRow} (hf : ∀ row, (f row).job_id = row.job_id)
    {rows outbox : List OutboxRow} (hids : (outbox.map OutboxRow.job_id).Nodup)
    (hrows : (rows.map OutboxRow.job_id).Nodup) (hmem : ∀ row ∈ rows, row ∈ outbox) :
    kept (rows.map f) outbox = outbox.map fun row => if row ∈ rows then f row else row := by
  induction rows generalizing outbox with
  | nil => simp [kept]
  | cons r rows ih =>
    obtain ⟨hr, hrows⟩ := List.nodup_cons.mp hrows
    have hne : ∀ row ∈ rows, row.job_id ≠ r.job_id := fun row hrow heq =>
      hr (heq ▸ List.mem_map_of_mem hrow)
    have hstay : ∀ row ∈ rows, row ∈ write OutboxRow.job_id (f r) outbox := fun row hrow =>
      (mem_write (hmem r List.mem_cons_self) (hf r)).mpr
        (Or.inr ⟨hmem row (List.mem_cons_of_mem _ hrow), hne row hrow⟩)
    have hcons : kept ((r :: rows).map f) outbox =
        kept (rows.map f) (write OutboxRow.job_id (f r) outbox) := rfl
    rw [hcons, ih (by rw [keys_write]; exact hids) hrows hstay, write, List.map_map]
    refine List.map_congr_left fun row hrow => ?_
    simp only [Function.comp_apply, hf]
    by_cases heq : row.job_id = r.job_id
    · obtain rfl : row = r :=
        List.inj_on_of_nodup_map hids hrow (hmem r List.mem_cons_self) heq
      have hfresh : f row ∉ rows := fun h => hne (f row) h (hf row)
      simp [hfresh]
    · have hother : row ≠ r := fun h => heq (congrArg OutboxRow.job_id h)
      simp [heq, hother]

theorem run_relayOnce (h : Inv w) (hfree : ∀ p ∈ w.passes, p.relay ≠ relay) :
    run (step registered) w (relayOnce relay batch_size now answer w) =
      some (relayed batch_size now answer w) := by
  have hclaim : step registered w (.claim relay batch_size) = some (w.claim relay batch_size) :=
    if_neg (by simpa using hfree)
  have hcommit := kept_map (f := answered now answer) (fun _ => job_id_answered) h.ids
    (claimable_nodup h batch_size) fun row hrow => (mem_claimable hrow).1
  rw [relayOnce, List.cons_append, run, hclaim, Option.bind_some, run_append,
    run_publishes (w := w.claim relay batch_size) rfl hfree, Option.bind_some]
  simpa [run, step, World.commit, World.claim, without, relayed, hcommit] using hfree

theorem Inv.relayed (h : Inv w) (hfree : ∀ p ∈ w.passes, p.relay ≠ relay) :
    Inv (relayed batch_size now answer w) :=
  run_preserves inv_step h (show run (step fun _ => true) w _ = some _ from run_relayOnce h hfree)

def pendingCount (w : World) : ℕ := w.outbox.countP fun row => row.status = .pending

theorem length_claimable (hpasses : w.passes = []) :
    (w.claimable batch_size).length = min batch_size (pendingCount w) := by
  have hlocked : ∀ id, w.locked id = false := by simp [World.locked, hpasses]
  rw [World.claimable, List.length_take, (sortedBy_perm _ _).length_eq, pendingCount,
    List.countP_eq_length_filter]
  simp [hlocked]

theorem pendingCount_relayed (h : Inv w) (hpasses : w.passes = []) :
    pendingCount (relayed batch_size now (fun _ => .sent) w) =
      pendingCount w - min batch_size (pendingCount w) := by
  have hclaimed : (w.outbox.filter (· ∈ w.claimable batch_size)).Perm (w.claimable batch_size) := by
    refine (List.perm_ext_iff_of_nodup (h.ids.of_map.filter _) ?_).mpr fun row => ?_
    · exact (claimable_nodup h batch_size).of_map
    · simpa using fun hrow => (mem_claimable hrow).1
  have hsplit : pendingCount w = pendingCount (relayed batch_size now (fun _ => .sent) w) +
      (w.outbox.filter (· ∈ w.claimable batch_size)).length := by
    rw [pendingCount, pendingCount, relayed, List.countP_map, ← List.countP_eq_length_filter]
    have hmem : ∀ row ∈ w.claimable batch_size, row.status = .pending := fun row hrow =>
      (mem_claimable hrow).2.1
    generalize w.claimable batch_size = claimed at hmem
    induction w.outbox with
    | nil => rfl
    | cons row outbox ih =>
      simp only [List.countP_cons, ih, Function.comp_apply]
      by_cases hrow : row ∈ claimed
      · simp [hrow, hmem row hrow, answered, settled]
        omega
      · simp [hrow]
        omega
  rw [← length_claimable hpasses, ← hclaimed.length_eq]
  omega

theorem run_relayPasses (registered : JobKind → Bool) (batch_size now n : ℕ) (answer : UUID → Publish)
    (h : Inv w) (hfree : ∀ p ∈ w.passes, p.relay ≠ relay) :
    ∃ w', run (step registered) w (relayPasses relay batch_size now answer n w) = some w' ∧
      w' = (relayed batch_size now answer)^[n] w := by
  induction n generalizing w with
  | zero => exact ⟨w, rfl, rfl⟩
  | succ n ih =>
    rw [relayPasses, run_append, run_relayOnce h hfree, Option.bind_some]
    exact ih (h.relayed hfree) hfree

theorem published_of_none_pending (h : Inv w) (hnone : pendingCount w = 0) (hrow : row ∈ w.outbox) :
    row.status = .published := by
  cases hstatus : row.status with
  | pending =>
    refine absurd hnone (Nat.pos_iff_ne_zero.mp ?_)
    exact List.countP_pos_iff.mpr ⟨row, hrow, by simp [hstatus]⟩
  | published => rfl
  | failed => exact absurd hstatus (h.unfailed row hrow)

theorem relayed_iterate (h : Inv w) (hpasses : w.passes = []) (hn : pendingCount w ≤ n * batch_size) :
    pendingCount ((relayed batch_size now fun _ => .sent)^[n] w) = 0 := by
  induction n generalizing w with
  | zero => simpa using hn
  | succ n ih =>
    refine ih (h.relayed (show ∀ p ∈ w.passes, p.relay ≠ 0 by simp [hpasses])) hpasses ?_
    rw [pendingCount_relayed h hpasses]
    rw [Nat.add_one_mul] at hn
    omega

theorem unmarked_iterate (w : World) (batch_size now n : ℕ) :
    ((relayed batch_size now fun _ => .sent)^[n] w).unmarked = w.unmarked ∧
      ((relayed batch_size now fun _ => .sent)^[n] w).platform = w.platform ∧
      ((relayed batch_size now fun _ => .sent)^[n] w).passes = w.passes := by
  induction n generalizing w with
  | zero => exact ⟨rfl, rfl, rfl⟩
  | succ n ih =>
    obtain ⟨hunmarked, hplatform, hpasses⟩ := ih (relayed batch_size now (fun _ => .sent) w)
    exact ⟨hunmarked.trans (by simp [relayed]), hplatform, hpasses⟩

/-- Once the broker takes what it is sent, a relay with no other open beside it catches up, and every
job has been sent. -/
theorem relay_drains (registered : JobKind → Bool) (es : List Event) (w : World)
    (h : run (step registered) .init es = some w) (hpasses : w.passes = [])
    (relay batch_size now n : ℕ) (hn : pendingCount w ≤ n * batch_size) :
    ∃ w', run (step registered) w (relayPasses relay batch_size now (fun _ => .sent) n w) = some w' ∧
      (∀ row ∈ w'.outbox, row.status = .published) ∧ w'.platform = w.platform ∧
      ∀ job ∈ w.platform.jobs, copies w' job.id = 1 + w.unmarked.count job.id := by
  have hinv : Inv w := run_preserves inv_step inv_init h
  have hfree : ∀ p ∈ w.passes, p.relay ≠ relay := by simp [hpasses]
  obtain ⟨w', hrun, hw'⟩ :=
    run_relayPasses registered batch_size now n (fun _ => .sent) hinv hfree
  have hinv' : Inv w' := run_preserves inv_step hinv hrun
  obtain ⟨hunmarked, hplatform, hclosed⟩ := unmarked_iterate w batch_size now n
  rw [← hw'] at hunmarked hplatform hclosed
  have hnone : pendingCount w' = 0 := hw' ▸ relayed_iterate hinv hpasses hn
  refine ⟨w', hrun, fun row => published_of_none_pending hinv' hnone, hplatform, fun job hjob => ?_⟩
  obtain ⟨row, hrow, hid⟩ := hinv'.row_of_job (hplatform ▸ hjob)
  have hmark := countP_marks_pos hrow hid (published_of_none_pending hinv' hnone hrow)
  have honce := hinv'.markCount_le job.id
  have haccount := hinv'.accounts job.id
  rw [hunmarked] at haccount
  rw [markCount] at honce haccount
  omega

theorem relay_drains_submitted : ∃ w w', run (step fun _ => true) .init submitted = some w ∧
    run (step fun _ => true) w (relayPasses 3 1 5 (fun _ => .sent) 1 w) = some w' ∧
      ∀ job ∈ w.platform.jobs, copies w' job.id = 1 := by
  obtain ⟨w, hw⟩ : ∃ w, run (step fun _ => true) .init submitted = some w := ⟨_, rfl⟩
  have hpasses : w.passes = [] := by
    cases hw
    rfl
  have hpending : pendingCount w ≤ 1 * 1 := by
    cases hw
    decide
  have hunmarked : w.unmarked = [] := by
    cases hw
    rfl
  obtain ⟨w', hrun, -, -, hcopies⟩ :=
    relay_drains (fun _ => true) submitted w hw hpasses 3 1 5 1 hpending
  exact ⟨w, w', hw, hrun, by simpa [hunmarked] using hcopies⟩

/-! ## A batch that the broker refuses -/

theorem status_answered (now : ℕ) (h : answer row.job_id ≠ .sent) :
    (answered now answer row).status = row.status ∧
      (answered now answer row).attempts = row.attempts + 1 := by
  rw [answered]
  cases hanswer : answer row.job_id with
  | sent => exact absurd hanswer h
  | raised error reached => exact ⟨rfl, rfl⟩

/-- The rows refused are the oldest ones still. -/
theorem claimable_relayed (hpasses : w.passes = [])
    (hrefused : ∀ row ∈ w.claimable batch_size, answer row.job_id ≠ .sent) :
    (relayed batch_size now answer w).claimable batch_size =
      (w.claimable batch_size).map (answered now answer) := by
  have hlocked : ∀ {w : World} (id : UUID), w.passes = [] → w.locked id = false := by
    simp +contextual [World.locked]
  set f : OutboxRow → OutboxRow := fun row =>
    if row ∈ w.claimable batch_size then answered now answer row else row with hf
  have hstatus : ∀ row, (f row).status = row.status := by
    intro row
    simp only [hf]
    split_ifs with hrow
    · exact (status_answered now (hrefused row hrow)).1
    · rfl
  have hcreated : ∀ row, (f row).created_at = row.created_at := by
    intro row
    simp only [hf]
    split_ifs
    · exact created_at_answered
    · rfl
  have hfilter : ((relayed batch_size now answer w).outbox.filter fun row => row.status = .pending ∧
      (relayed batch_size now answer w).locked row.job_id = false) =
      (w.outbox.filter fun row => row.status = .pending ∧ w.locked row.job_id = false).map f := by
    simp only [hlocked _ hpasses, hlocked (w := relayed batch_size now answer w) _ hpasses, and_true]
    rw [relayed, List.filter_map]
    refine congrArg (List.map f) (List.filter_congr fun row _ => ?_)
    simp only [Function.comp_apply]
    rw [← hstatus row]
  have hsorted : ∀ rows : List OutboxRow, sortedBy OutboxRow.created_at (rows.map f) =
      (sortedBy OutboxRow.created_at rows).map f := fun rows =>
    (List.map_mergeSort fun a _ b _ => by rw [hcreated, hcreated]).symm
  rw [World.claimable, hfilter, hsorted, ← List.map_take]
  exact List.map_congr_left fun row hrow => if_pos hrow

theorem mem_claimable_relayed (h : Inv w) (hpasses : w.passes = [])
    (hrefused : ∀ row ∈ w.claimable batch_size, answer row.job_id ≠ .sent) (hrow : row ∈ w.outbox) :
    (if row ∈ w.claimable batch_size then answered now answer row else row) ∈
      (relayed batch_size now answer w).claimable batch_size ↔ row ∈ w.claimable batch_size := by
  rw [claimable_relayed hpasses hrefused]
  split_ifs with hclaimed
  · exact iff_of_true (List.mem_map_of_mem hclaimed) hclaimed
  · refine iff_of_false (fun hmem => ?_) hclaimed
    obtain ⟨old, hold, rfl⟩ := List.mem_map.mp hmem
    obtain heq : old = answered now answer old :=
      List.inj_on_of_nodup_map h.ids (mem_claimable hold).1 hrow job_id_answered.symm
    exact hclaimed (heq ▸ hold)

/-- A relay never gets past a batch that the broker refuses: however many passes it makes, every
other row is as it was, whether the broker would take it or not. -/
theorem refused_batch_blocks (registered : JobKind → Bool) (es : List Event) (w : World)
    (h : run (step registered) .init es = some w) (hpasses : w.passes = [])
    (relay batch_size now n : ℕ) (answer : UUID → Publish)
    (hrefused : ∀ row ∈ w.claimable batch_size, answer row.job_id ≠ .sent) :
    ∃ w', run (step registered) w (relayPasses relay batch_size now answer n w) = some w' ∧
      (w'.outbox.map fun row => (row.job_id, row.status, row.attempts)) =
        w.outbox.map fun row => (row.job_id, row.status,
          row.attempts + if row ∈ w.claimable batch_size then n else 0) := by
  have hinv : Inv w := run_preserves inv_step inv_init h
  have hfree : ∀ p ∈ w.passes, p.relay ≠ relay := by simp [hpasses]
  obtain ⟨w', hrun, rfl⟩ := run_relayPasses registered batch_size now n answer hinv hfree
  refine ⟨_, hrun, ?_⟩
  clear h hrun
  induction n generalizing w with
  | zero => simp
  | succ n ih =>
    have hrefused' : ∀ row ∈ (relayed batch_size now answer w).claimable batch_size,
        answer row.job_id ≠ .sent := by
      rw [claimable_relayed hpasses hrefused]
      intro row hrow
      obtain ⟨old, hold, rfl⟩ := List.mem_map.mp hrow
      rw [job_id_answered]
      exact hrefused old hold
    rw [Function.iterate_succ_apply, ih (relayed batch_size now answer w) hpasses hrefused' (hinv.relayed hfree) hfree]
    have houtbox : (relayed batch_size now answer w).outbox = w.outbox.map fun row =>
        if row ∈ w.claimable batch_size then answered now answer row else row := rfl
    rw [houtbox, List.map_map]
    refine List.map_congr_left fun row hrow => ?_
    simp only [Function.comp_apply, mem_claimable_relayed hinv hpasses hrefused hrow]
    split_ifs with hclaimed
    · obtain ⟨hstatus, hattempts⟩ := status_answered now (hrefused row hclaimed)
      rw [job_id_answered, hstatus, hattempts]
      congr 2
      omega
    · rfl

def twoSubmitted : List Event := submitted ++ [.platform (.lookup 0 fit), .submit 0 8 0 none none]

/-- The second job stays behind the first one. -/
theorem refused_batch_blocks_submitted : ∃ w w',
    run (step fun _ => true) .init twoSubmitted = some w ∧
    run (step fun _ => true) w (relayPasses 3 1 5 (fun _ => .raised "unroutable" false) 2 w) =
      some w' ∧
      (w'.outbox.map fun row => (row.job_id, row.status, row.attempts)) =
        [(7, .pending, 2), (8, .pending, 0)] := by
  obtain ⟨w, hw⟩ : ∃ w, run (step fun _ => true) .init twoSubmitted = some w := ⟨_, rfl⟩
  have hpasses : w.passes = [] := by
    cases hw
    rfl
  have houtbox : w.outbox = [enqueue fit 7 none none 0, enqueue fit 8 none none 0] := by
    cases hw
    rfl
  have hclaimable : w.claimable 1 = [enqueue fit 7 none none 0] := by
    simp [World.claimable, houtbox, World.locked, hpasses, enqueue, sortedBy, List.mergeSort]
  obtain ⟨w', hrun, hrows⟩ := refused_batch_blocks (fun _ => true) twoSubmitted w hw hpasses 3 1 5 2
    (fun _ => .raised "unroutable" false) (by simp)
  refine ⟨w, w', hw, hrun, ?_⟩
  rw [hrows, houtbox, hclaimable]
  decide

end Outbox

end GiPricing.Jobs
