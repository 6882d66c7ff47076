import GiPricing.Jobs.Lifecycle

/-! # Runs of jobs

A job follows the declared transitions, its handler is called at most once, and a finished job
stays as it is up to the progress its handler reports.
-/

namespace GiPricing.Jobs

open Failure Transition

variable {p p' : Platform} {old new : JobRow} {registered : JobKind → Bool}

/-- The status `running` was reached. -/
def HasRun (p : Platform) (id : UUID) : Prop := ∃ before, .moved id before .running ∈ p.audit

/-! ## One row -/

/-- What a transaction does to a row of the table. -/
inductive RowStep (old : JobRow) : JobRow → Prop
  | marked (now : ℕ) (h : old.status.terminal = false) :
      RowStep old { old with cancellation_requested_at := some now }
  | moved (to_status : JobStatus) (c : Platform.Payload) (now : ℕ)
      (h : to_status ∈ validTransitions old.status) : RowStep old (Platform.moved old to_status c now)
  | cancelled (now : ℕ) (h : old.status = .queued) :
      RowStep old (Platform.moved { old with cancellation_requested_at := some now } .cancelled
        .empty now)
  | reported (progress : String) (now : ℕ) :
      RowStep old { old with progress := some progress, progress_at := some now }

def JobRow.submission (row : JobRow) : Submission :=
  ⟨row.workspace_id, row.kind, row.parameters, row.idempotency_key⟩

theorem validTransitions_terminal {a b : JobStatus} (h : b ∈ validTransitions a) :
    a.terminal = false := by
  cases a <;> first | rfl | cases h

theorem running_of_mem {a : JobStatus} (h : JobStatus.running ∈ validTransitions a) : a = .queued := by
  cases a <;> simp_all [validTransitions]

theorem RowStep.id_eq (h : RowStep old new) : new.id = old.id := by cases h <;> rfl

theorem RowStep.submission_eq (h : RowStep old new) : new.submission = old.submission := by
  cases h <;> rfl

theorem RowStep.status_eq (h : RowStep old new) :
    new.status = old.status ∨ new.status ∈ validTransitions old.status := by
  cases h with
  | marked => exact Or.inl rfl
  | moved to_status c now h => exact Or.inr h
  | cancelled now h =>
    right
    rw [h]
    exact (by decide : JobStatus.cancelled ∈ validTransitions .queued)
  | reported => exact Or.inl rfl

theorem RowStep.started_iff (h : RowStep old new) : new.started_at.isSome ↔
    old.started_at.isSome ∨ new.status = .running ∧ old.status = .queued := by
  cases h with
  | marked => exact ⟨Or.inl, fun h' => h'.elim id fun ⟨hr, hq⟩ =>
      absurd (hr.symm.trans hq) (by decide)⟩
  | moved to_status c now h =>
    by_cases hr : to_status = .running
    · subst hr
      simp [Platform.moved, running_of_mem h]
    · simp [Platform.moved, hr]
  | cancelled now h => simp [Platform.moved]
  | reported => exact ⟨Or.inl, fun h' => h'.elim id fun ⟨hr, hq⟩ =>
      absurd (hr.symm.trans hq) (by decide)⟩

theorem RowStep.finished_iff (h : RowStep old new)
    (hold : old.finished_at.isSome ↔ old.status.terminal = true) :
    new.finished_at.isSome ↔ new.status.terminal = true := by
  cases h with
  | marked => exact hold
  | moved to_status c now h =>
    by_cases hterminal : to_status.terminal = true
    · simp [Platform.moved, hterminal]
    · simp [Platform.moved, hterminal, hold, validTransitions_terminal h]
  | cancelled now h => simp [Platform.moved, JobStatus.terminal]
  | reported => exact hold

/-- A row that has finished differs by a report at most. -/
structure Frozen (old new : JobRow) : Prop where
  status : new.status = old.status
  result : new.result = old.result
  error : new.error = old.error
  queued_at : new.queued_at = old.queued_at
  started_at : new.started_at = old.started_at
  finished_at : new.finished_at = old.finished_at
  cancellation_requested_at : new.cancellation_requested_at = old.cancellation_requested_at

theorem Frozen.refl (row : JobRow) : Frozen row row := ⟨rfl, rfl, rfl, rfl, rfl, rfl, rfl⟩

theorem RowStep.frozen (h : RowStep old new) (hterminal : old.status.terminal = true) :
    Frozen old new := by
  cases h with
  | marked now h => simp [h] at hterminal
  | moved to_status c now h => simp [validTransitions_terminal h] at hterminal
  | cancelled now h => simp [h, JobStatus.terminal] at hterminal
  | reported => exact ⟨rfl, rfl, rfl, rfl, rfl, rfl, rfl⟩

/-! ## One step -/

/-- An answer that names a job names one of what was submitted. -/
def Grounded (p : Platform) (a : Submission × Except Refusal UUID) : Prop :=
  ∀ id, a.2 = .ok id → ∃ row ∈ p.jobs, row.id = id ∧ row.submission = a.1

/-- What an event does to the table, the answers and the calls. -/
inductive Change (p p' : Platform) : Prop
  | idle (hjobs : p'.jobs = p.jobs) (haudit : p'.audit = p.audit) (hhandled : p'.handled = p.handled)
      (hanswers : p'.answers = p.answers ∨
        ∃ r a, p'.answers = p.answers ++ [(r, a)] ∧ Grounded p (r, a) ∧
          ∀ row ∈ p.jobs, row.workspace_id = r.workspace_id → row.idempotency_key = r.idempotency_key →
            r.idempotency_key ≠ none → row.submission ≠ r → a = .error .idempotencyKeyConflict)
  | insert (r : Submission) (id : UUID) (now : ℕ) (hid : ∀ row ∈ p.jobs, row.id ≠ id)
      (hkey : p.keyHeld r = false) (hjobs : p'.jobs = p.jobs ++ [Platform.newRow r id now])
      (haudit : p'.audit = p.audit ++ [.submitted id]) (hhandled : p'.handled = p.handled)
      (hanswers : p'.answers = p.answers ++ [(r, .ok id)])
  | update (old new : JobRow) (hold : old ∈ p.jobs) (hrow : RowStep old new)
      (hjobs : p'.jobs = write JobRow.id new p.jobs)
      (hran : ∀ id, HasRun p' id ↔
        HasRun p id ∨ id = old.id ∧ new.status = .running ∧ old.status = .queued)
      (hhandled : p'.handled = p.handled ∨
        p'.handled = p.handled ++ [old.id] ∧ old.status = .queued ∧ new.status = .running)
      (hanswers : p'.answers = p.answers)

/-- The keys of a table are of one row each. -/
structure Keyed (p : Platform) : Prop where
  ids : (p.jobs.map JobRow.id).Nodup
  keys : ∀ a ∈ p.jobs, ∀ b ∈ p.jobs, a.workspace_id = b.workspace_id →
    a.idempotency_key = b.idempotency_key → a.idempotency_key ≠ none → a = b

theorem get_eq_some {id : UUID} {row : JobRow} (h : p.get id = some row) :
    row ∈ p.jobs ∧ row.id = id := by
  have := List.find?_some h
  exact ⟨List.mem_of_find?_eq_some h, by simpa using this⟩

theorem get_eq_none {id : UUID} (h : p.get id = none) : ∀ row ∈ p.jobs, row.id ≠ id := by
  simpa [Platform.get, List.find?_eq_none] using h

theorem change_self (h : p'.jobs = p.jobs) (haudit : p'.audit = p.audit)
    (hhandled : p'.handled = p.handled) (hanswers : p'.answers = p.answers) : Change p p' :=
  .idle h haudit hhandled (Or.inl hanswers)

theorem lookup_change (hp : Keyed p) (client : ℕ) (r : Submission) :
    Change p (p.lookup client r) := by
  rw [Platform.lookup]
  split
  case h_2 => exact change_self rfl rfl rfl rfl
  case h_1 existing h =>
    obtain ⟨key, hkey, hfind⟩ := Option.bind_eq_some_iff.mp h
    have hmem := List.mem_of_find?_eq_some hfind
    have hp' := List.find?_some hfind
    simp only [decide_eq_true_eq] at hp'
    refine .idle rfl rfl rfl (Or.inr ⟨r, _, rfl, ?_, ?_⟩)
    · intro id hid
      simp only [Platform.existingAnswer] at hid
      split_ifs at hid with hsame
      cases hid
      refine ⟨existing, hmem, rfl, ?_⟩
      rw [JobRow.submission, hp'.1, hp'.2, hsame.1, hsame.2, ← hkey]
    · intro row hrow hws hk hne hdiff
      obtain rfl := hp.keys row hrow existing hmem (hws.trans hp'.1.symm)
        (hk.trans (hkey.trans hp'.2.symm)) (hk ▸ hne)
      rw [Platform.existingAnswer, if_neg]
      rintro ⟨hkind, hparameters⟩
      exact hdiff (by rw [JobRow.submission, hws, hk, hkind, hparameters])

theorem insert_change {client id now : ℕ} (r : Submission) (hid : p.get id = none) :
    Change p (p.insert client r id now) := by
  rw [Platform.insert]
  simp only
  split_ifs with hkey
  · refine .idle rfl rfl rfl (Or.inr ⟨r, _, rfl, ?_, fun _ _ _ _ _ _ => rfl⟩)
    rintro id' h
    cases h
  · rw [Bool.not_eq_true] at hkey
    exact .insert r id now (get_eq_none hid) hkey rfl rfl rfl rfl

theorem transition_eq_ok {id : UUID} {to_status : JobStatus} {c : Platform.Payload} {now : ℕ}
    (h : p.transition id to_status c now = .ok p') :
    ∃ row ∈ p.jobs, row.id = id ∧ to_status ∈ validTransitions row.status ∧
      p' = (p.put (Platform.moved row to_status c now)).record (.moved id row.status to_status) := by
  rw [Platform.transition, require_bind_eq_ok] at h
  obtain ⟨row, hget, h⟩ := h
  rw [ensure_bind_eq_ok, ensure_bind_eq_ok, pure_eq_ok] at h
  obtain ⟨hvalid, -, rfl⟩ := h
  obtain ⟨hrow, hid⟩ := get_eq_some hget
  exact ⟨row, hrow, hid, hvalid, rfl⟩

theorem hasRun_record (event : AuditEvent) (id : UUID) :
    HasRun (p.record event) id ↔ HasRun p id ∨ ∃ before, event = .moved id before .running := by
  simp only [HasRun, Platform.record, List.mem_append, List.mem_singleton, exists_or]
  exact or_congr_right (exists_congr fun _ => eq_comm)

theorem hasRun_moved {id row_id : UUID} {before to_status : JobStatus}
    (hvalid : to_status ∈ validTransitions before) :
    (∃ b, AuditEvent.moved row_id before to_status = .moved id b .running) ↔
      id = row_id ∧ to_status = .running ∧ before = .queued := by
  simp only [AuditEvent.moved.injEq, exists_and_left, exists_and_right]
  constructor
  · rintro ⟨rfl, hrest⟩
    simp only [exists_eq', true_and] at hrest
    subst hrest
    exact ⟨rfl, rfl, running_of_mem hvalid⟩
  · rintro ⟨rfl, rfl, rfl⟩
    simp

theorem transition_change {id : UUID} {to_status : JobStatus} {c : Platform.Payload} {now : ℕ}
    (h : p.transition id to_status c now = .ok p') : Change p p' := by
  obtain ⟨row, hrow, rfl, hvalid, rfl⟩ := transition_eq_ok h
  refine .update row _ hrow (.moved to_status c now hvalid) rfl (fun id => ?_) (Or.inl rfl) rfl
  rw [hasRun_record, hasRun_moved hvalid]
  exact Iff.rfl

theorem cancellation_change {id : UUID} {now : ℕ}
    (h : p.requestCancellation id now = .ok p') : Change p p' := by
  rw [Platform.requestCancellation, require_bind_eq_ok] at h
  obtain ⟨row, hget, h⟩ := h
  rw [ensure_bind_eq_ok] at h
  obtain ⟨hterminal, h⟩ := h
  obtain ⟨hrow, rfl⟩ := get_eq_some hget
  rw [Platform.mark] at h
  have hran : ∀ id, HasRun ((p.put { row with cancellation_requested_at := some now }).record
      (.cancellationRequested row.id)) id ↔ HasRun p id := by
    intro id
    rw [hasRun_record]
    exact ⟨fun h => h.resolve_right (by rintro ⟨_, ⟨⟩⟩), Or.inl⟩
  split_ifs at h with hqueued hnone hnone
  · -- the mark and the move write one row twice
    obtain ⟨row', hrow', hid', hvalid, rfl⟩ := transition_eq_ok h
    obtain rfl : row' = { row with cancellation_requested_at := some now } := by
      have hwritten : row' ∈ write JobRow.id { row with cancellation_requested_at := some now }
          p.jobs := hrow'
      have hkey : JobRow.id { row with cancellation_requested_at := some now } = row.id := rfl
      rcases (mem_write hrow hkey).mp hwritten with rfl | ⟨-, hne⟩
      · rfl
      · exact absurd hid' hne
    refine .update row _ hrow (.cancelled now hqueued) ?_ (fun id => ?_) (Or.inl rfl) rfl
    · exact write_write rfl
    · rw [hasRun_record, hasRun_moved hvalid]
      exact or_congr_left (hran id)
  · exact transition_change h
  · obtain rfl := pure_eq_ok.mp h
    refine .update row _ hrow (.marked now hterminal) rfl (fun id => ?_) (Or.inl rfl) rfl
    rw [hran]
    refine ⟨Or.inl, fun h => h.resolve_right ?_⟩
    rintro ⟨-, hr, hq⟩
    exact hqueued hq
  · obtain rfl := pure_eq_ok.mp h
    exact change_self rfl rfl rfl rfl

theorem attempt_change {result : Except Refusal Platform}
    (h : ∀ q, result = .ok q → Change p q) : Change p (p.attempt result) := by
  cases result with
  | error e => exact change_self rfl rfl rfl rfl
  | ok q => exact h q rfl

theorem Change.of_deliver {d : ℕ} {next : Delivery} (h : Change (p.deliver d next) p') :
    Change p p' := by
  cases h with
  | idle hjobs haudit hhandled hanswers => exact .idle hjobs haudit hhandled hanswers
  | insert r id now hid hkey hjobs haudit hhandled hanswers =>
    exact .insert r id now hid hkey hjobs haudit hhandled hanswers
  | update old new hold hrow hjobs hran hhandled hanswers =>
    exact .update old new hold hrow hjobs hran hhandled hanswers

theorem step_change (hp : Keyed p) {e : Platform.Event} (h : Platform.step registered p e = some p') :
    Change p p' := by
  cases e with
  | lookup client r =>
    simp only [Platform.step] at h
    split_ifs at h
    cases h
    exact lookup_change hp client r
  | insert client id now =>
    simp only [Platform.step, Option.bind_eq_some_iff] at h
    obtain ⟨r, -, h⟩ := h
    split_ifs at h with hid
    cases h
    exact insert_change r hid
  | transition id to_status c now =>
    cases h
    exact attempt_change fun q hq => transition_change hq
  | requestCancellation id now =>
    cases h
    exact attempt_change fun q hq => cancellation_change hq
  | deliver d id =>
    simp only [Platform.step] at h
    split_ifs at h
    cases h
    exact change_self rfl rfl rfl rfl
  | advance d now build error =>
    simp only [Platform.step, Platform.advance] at h
    split at h
    case h_1 =>
      cases h
      exact (attempt_change fun q hq => transition_change hq).of_deliver
    case h_2 =>
      cases h
      exact (attempt_change fun q hq => transition_change hq).of_deliver
    case h_3 id _ =>
      split at h
      case h_1 q hq =>
        obtain ⟨row, hrow, rfl, hvalid, rfl⟩ := transition_eq_ok hq
        cases h
        refine .update row _ hrow (.moved .running _ now hvalid) rfl (fun id => ?_)
          (Or.inr ⟨rfl, running_of_mem hvalid, rfl⟩) rfl
        exact (hasRun_record _ id).trans (or_congr_right (hasRun_moved hvalid))
      case h_2 =>
        cases h
        exact change_self rfl rfl rfl rfl
    case h_4 => cases h
    case h_5 => cases h
  | progress d progress now =>
    simp only [Platform.step] at h
    split at h <;> cases h
    rename_i id _
    rw [Platform.writeProgress]
    split
    case h_1 row hget =>
      obtain ⟨hrow, rfl⟩ := get_eq_some hget
      refine .update row _ hrow (.reported progress now) rfl (fun id => ?_) (Or.inl rfl) rfl
      refine ⟨Or.inl, fun h => h.resolve_right ?_⟩
      rintro ⟨-, hr, hq⟩
      simp [hq] at hr
    case h_2 => exact change_self rfl rfl rfl rfl
  | finish d outcome now =>
    simp only [Platform.step] at h
    split at h <;> cases h
    exact (attempt_change fun q hq => transition_change hq).of_deliver
  | crash d =>
    cases h
    exact change_self rfl rfl rfl rfl

/-! ## The invariant -/

structure Inv (p : Platform) : Prop extends Keyed p where
  started : ∀ row ∈ p.jobs, (row.started_at.isSome ↔ HasRun p row.id)
  finished : ∀ row ∈ p.jobs, (row.finished_at.isSome ↔ row.status.terminal = true)
  queued : ∀ row ∈ p.jobs, row.status = .queued → ¬ HasRun p row.id
  known : ∀ id, HasRun p id → ∃ row ∈ p.jobs, row.id = id
  handled : p.handled.Nodup
  handledRun : ∀ id ∈ p.handled, HasRun p id
  answered : ∀ a ∈ p.answers, Grounded p a

theorem inv_init : Inv .init where
  ids := List.nodup_nil
  keys := by rintro a ⟨⟩
  started := by rintro a ⟨⟩
  finished := by rintro a ⟨⟩
  queued := by rintro a ⟨⟩
  known := by rintro id ⟨_, ⟨⟩⟩
  handled := List.nodup_nil
  handledRun := by rintro id ⟨⟩
  answered := by rintro a ⟨⟩

theorem same_id (hp : Keyed p) {a b : JobRow} (ha : a ∈ p.jobs) (hb : b ∈ p.jobs)
    (h : a.id = b.id) : a = b := List.inj_on_of_nodup_map hp.ids ha hb h

/-- Each row goes on, as it was or a row step further. -/
theorem Change.row (hp : Keyed p) (h : Change p p') {row : JobRow} (hrow : row ∈ p.jobs) :
    ∃ row' ∈ p'.jobs, row' = row ∨ RowStep row row' := by
  cases h with
  | idle hjobs => exact ⟨row, hjobs ▸ hrow, Or.inl rfl⟩
  | insert r id now hid hkey hjobs => exact ⟨row, hjobs ▸ List.mem_append_left _ hrow, Or.inl rfl⟩
  | update old new hold hstep hjobs =>
    rw [hjobs]
    by_cases h : row.id = old.id
    · obtain rfl := same_id hp hrow hold h
      exact ⟨new, (mem_write hold hstep.id_eq).mpr (Or.inl rfl), Or.inr hstep⟩
    · exact ⟨row, (mem_write hold hstep.id_eq).mpr (Or.inr ⟨hrow, h⟩), Or.inl rfl⟩

theorem Change.grounded (hp : Keyed p) (h : Change p p') {a : Submission × Except Refusal UUID}
    (ha : Grounded p a) : Grounded p' a := by
  intro id hid
  obtain ⟨row, hrow, rfl, hsub⟩ := ha id hid
  obtain ⟨row', hrow', rfl | hstep⟩ := h.row hp hrow
  · exact ⟨row', hrow', rfl, hsub⟩
  · exact ⟨row', hrow', hstep.id_eq, hstep.submission_eq.trans hsub⟩

theorem keyHeld_eq_false {r : Submission} (h : p.keyHeld r = false) {row : JobRow}
    (hrow : row ∈ p.jobs) (hws : row.workspace_id = r.workspace_id)
    (hkey : row.idempotency_key = r.idempotency_key) : r.idempotency_key = none := by
  by_contra hne
  obtain ⟨key, hk⟩ := Option.ne_none_iff_exists'.mp hne
  rw [Platform.keyHeld, hk, Option.any_some, Option.isSome_eq_false_iff, Option.isNone_iff_eq_none,
    Platform.findByIdempotencyKey, List.find?_eq_none] at h
  exact h row hrow (by simp [hws, hkey, hk])

theorem Inv.idle (h : Inv p) (hjobs : p'.jobs = p.jobs) (haudit : p'.audit = p.audit)
    (hhandled : p'.handled = p.handled) (hanswers : ∀ a ∈ p'.answers, Grounded p' a) : Inv p' := by
  have hran : ∀ id, HasRun p' id ↔ HasRun p id := fun id => by rw [HasRun, HasRun, haudit]
  refine ⟨⟨hjobs ▸ h.ids, hjobs ▸ h.keys⟩, ?_, hjobs ▸ h.finished, ?_, ?_, hhandled ▸ h.handled, ?_,
    hanswers⟩
  · intro row hrow
    rw [hran]
    exact h.started row (hjobs ▸ hrow)
  · intro row hrow hq
    rw [hran]
    exact h.queued row (hjobs ▸ hrow) hq
  · intro id hid
    rw [hjobs]
    exact h.known id ((hran id).mp hid)
  · intro id hid
    exact (hran id).mpr (h.handledRun id (hhandled ▸ hid))

theorem Inv.insert (h : Inv p) {r : Submission} {id now : ℕ} (hid : ∀ row ∈ p.jobs, row.id ≠ id)
    (hkey : p.keyHeld r = false) (hjobs : p'.jobs = p.jobs ++ [Platform.newRow r id now])
    (haudit : p'.audit = p.audit ++ [.submitted id]) (hhandled : p'.handled = p.handled)
    (hanswers : ∀ a ∈ p'.answers, Grounded p' a) : Inv p' := by
  have hran : ∀ id, HasRun p' id ↔ HasRun p id := fun id => by
    rw [HasRun, HasRun, haudit]
    simp
  have hnew : ¬ HasRun p id := by
    intro hr
    obtain ⟨row, hrow, he⟩ := h.known id hr
    exact hid row hrow he
  have hmem : ∀ row ∈ p'.jobs, row ∈ p.jobs ∨ row = Platform.newRow r id now := by
    intro row hrow
    rw [hjobs, List.mem_append, List.mem_singleton] at hrow
    exact hrow
  refine ⟨⟨?_, ?_⟩, ?_, ?_, ?_, ?_, hhandled ▸ h.handled, ?_, hanswers⟩
  · rw [hjobs, List.map_append, List.nodup_append]
    refine ⟨h.ids, List.nodup_singleton _, ?_⟩
    rintro a ha b hb rfl
    obtain ⟨row, hrow, he⟩ := List.mem_map.mp ha
    rw [List.map_singleton, List.mem_singleton] at hb
    exact hid row hrow (he.trans hb)
  · intro a ha b hb hws hk hne
    rcases hmem a ha with ha | rfl <;> rcases hmem b hb with hb | rfl
    · exact h.keys a ha b hb hws hk hne
    · exact absurd (hk.trans (keyHeld_eq_false hkey ha hws hk)) hne
    · exact absurd (keyHeld_eq_false hkey hb hws.symm hk.symm) hne
    · rfl
  · intro row hrow
    rw [hran]
    rcases hmem row hrow with hrow | rfl
    · exact h.started row hrow
    · exact ⟨fun hs => absurd hs (by simp [Platform.newRow]), fun hr => absurd hr hnew⟩
  · intro row hrow
    rcases hmem row hrow with hrow | rfl
    · exact h.finished row hrow
    · simp [Platform.newRow, JobStatus.terminal]
  · intro row hrow hq
    rw [hran]
    rcases hmem row hrow with hrow | rfl
    · exact h.queued row hrow hq
    · exact hnew
  · intro id' hr
    obtain ⟨row, hrow, he⟩ := h.known id' ((hran id').mp hr)
    exact ⟨row, hjobs ▸ List.mem_append_left _ hrow, he⟩
  · intro id' hid'
    exact (hran id').mpr (h.handledRun id' (hhandled ▸ hid'))

theorem Inv.update (h : Inv p) (hold : old ∈ p.jobs) (hrow : RowStep old new)
    (hjobs : p'.jobs = write JobRow.id new p.jobs)
    (hran : ∀ id, HasRun p' id ↔
      HasRun p id ∨ id = old.id ∧ new.status = .running ∧ old.status = .queued)
    (hhandled : p'.handled = p.handled ∨
      p'.handled = p.handled ++ [old.id] ∧ old.status = .queued ∧ new.status = .running)
    (hanswers : ∀ a ∈ p'.answers, Grounded p' a) : Inv p' := by
  have hmem : ∀ row ∈ p'.jobs, row = new ∨ row ∈ p.jobs ∧ row.id ≠ old.id := by
    intro row hr
    rw [hjobs] at hr
    exact (mem_write hold hrow.id_eq).mp hr
  have hsub := hrow.submission_eq
  have hws : new.workspace_id = old.workspace_id := congrArg Submission.workspace_id hsub
  have hkey : new.idempotency_key = old.idempotency_key :=
    congrArg Submission.idempotency_key hsub
  refine ⟨⟨?_, ?_⟩, ?_, ?_, ?_, ?_, ?_, ?_, hanswers⟩
  · rw [hjobs, keys_write]
    exact h.ids
  · intro a ha b hb hab hk hne
    rcases hmem a ha with rfl | ⟨ha, hia⟩ <;> rcases hmem b hb with rfl | ⟨hb, hib⟩
    · rfl
    · have he := h.keys old hold b hb (hws ▸ hab) (hkey ▸ hk) (hkey ▸ hne)
      exact absurd (congrArg JobRow.id he.symm) hib
    · have he := h.keys a ha old hold (hws ▸ hab) (hkey ▸ hk) hne
      exact absurd (congrArg JobRow.id he) hia
    · exact h.keys a ha b hb hab hk hne
  · intro row hr
    rw [hran]
    rcases hmem row hr with rfl | ⟨hr, hne⟩
    · rw [hrow.started_iff, h.started old hold, hrow.id_eq]
      simp
    · rw [h.started row hr]
      exact ⟨Or.inl, fun h' => h'.resolve_right fun h' => hne h'.1⟩
  · intro row hr
    rcases hmem row hr with rfl | ⟨hr, -⟩
    · exact hrow.finished_iff (h.finished old hold)
    · exact h.finished row hr
  · intro row hr hq
    rw [hran]
    rcases hmem row hr with rfl | ⟨hr, hne⟩
    · -- a row that is queued after the step was queued before it
      have hqueued : old.status = .queued := by
        rcases hrow.status_eq with hs | hs
        · exact hs.symm.trans hq
        · rw [hq] at hs
          revert hs
          cases old.status <;> decide
      rw [hrow.id_eq]
      rintro (hr | ⟨-, hr, -⟩)
      · exact h.queued old hold hqueued hr
      · rw [hq] at hr
        cases hr
    · rintro (h' | ⟨h', -⟩)
      · exact h.queued row hr hq h'
      · exact hne h'
  · intro id hid
    have hid' : ∃ row ∈ p.jobs, row.id = id := by
      rcases (hran id).mp hid with hr | ⟨rfl, -⟩
      · exact h.known id hr
      · exact ⟨old, hold, rfl⟩
    have hids : (write JobRow.id new p.jobs).map JobRow.id = p.jobs.map JobRow.id := keys_write
    rw [← List.mem_map, hjobs, hids, List.mem_map]
    exact hid'
  · rcases hhandled with he | ⟨he, hq, -⟩
    · exact he ▸ h.handled
    · rw [he, List.nodup_append]
      refine ⟨h.handled, List.nodup_singleton _, ?_⟩
      rintro a ha b hb rfl
      obtain rfl := List.mem_singleton.mp hb
      exact h.queued old hold hq (h.handledRun _ ha)
  · intro id hid
    rw [hran]
    rcases hhandled with he | ⟨he, hq, hr⟩
    · exact Or.inl (h.handledRun id (he ▸ hid))
    · rw [he, List.mem_append, List.mem_singleton] at hid
      exact hid.imp (h.handledRun id) fun h' => ⟨h', hr, hq⟩

theorem Change.inv (h : Inv p) (hc : Change p p') : Inv p' := by
  have hold : ∀ a ∈ p.answers, Grounded p' a :=
    fun a ha => hc.grounded h.toKeyed (h.answered a ha)
  cases hc with
  | idle hjobs haudit hhandled hanswers =>
    refine h.idle hjobs haudit hhandled fun a ha => ?_
    rcases hanswers with he | ⟨r, b, he, hb, -⟩
    · exact hold a (he ▸ ha)
    · rw [he, List.mem_append, List.mem_singleton] at ha
      rcases ha with ha | rfl
      · exact hold a ha
      · intro id hid
        rw [hjobs]
        exact hb id hid
  | insert r id now hid hkey hjobs haudit hhandled hanswers =>
    refine h.insert hid hkey hjobs haudit hhandled fun a ha => ?_
    rw [hanswers, List.mem_append, List.mem_singleton] at ha
    rcases ha with ha | rfl
    · exact hold a ha
    · intro id' hid'
      cases hid'
      refine ⟨Platform.newRow r id now, ?_, rfl, rfl⟩
      rw [hjobs]
      exact List.mem_append_right _ List.mem_cons_self
  | update old new hmem hrow hjobs hran hhandled hanswers =>
    exact h.update hmem hrow hjobs hran hhandled fun a ha => hold a (hanswers ▸ ha)

/-! ## Runs -/

/-- What holds in every state reached. -/
structure Consistent (p : Platform) : Prop where
  started : ∀ row ∈ p.jobs, (row.started_at.isSome ↔ HasRun p row.id)
  finished : ∀ row ∈ p.jobs, (row.finished_at.isSome ↔ row.status.terminal = true)
  handled : ∀ id, p.handled.count id ≤ 1
  oneJob : ∀ a ∈ p.jobs, ∀ b ∈ p.jobs, a.workspace_id = b.workspace_id →
    a.idempotency_key = b.idempotency_key → a.idempotency_key ≠ none → a = b
  sameAnswer : ∀ r r' id id', (r, .ok id) ∈ p.answers → (r', .ok id') ∈ p.answers →
    r.workspace_id = r'.workspace_id → r.idempotency_key = r'.idempotency_key →
    r.idempotency_key ≠ none → id = id' ∧ r = r'

/-- What holds of every step: a job stays, moves along the declared transitions and is frozen by
`freeze` once it has finished, and a key that is held for another request is refused. -/
structure Lawful (freeze : JobRow → JobRow → Prop) (p p' : Platform) : Prop where
  moves : ∀ row ∈ p.jobs, ∃ row' ∈ p'.jobs, row'.id = row.id ∧
    (row'.status = row.status ∨ row'.status ∈ validTransitions row.status) ∧
    (row.status.terminal = true → freeze row row')
  refuses : ∀ row ∈ p.jobs, ∀ r a, p'.answers = p.answers ++ [(r, a)] →
    row.workspace_id = r.workspace_id → row.idempotency_key = r.idempotency_key →
    r.idempotency_key ≠ none → row.submission ≠ r →
    a = .error .idempotencyKeyConflict ∧ p'.jobs = p.jobs

theorem Inv.consistent (h : Inv p) : Consistent p where
  started := h.started
  finished := h.finished
  handled := List.nodup_iff_count_le_one.mp h.handled
  oneJob := h.keys
  sameAnswer r r' id id' hr hr' hws hkey hne := by
    obtain ⟨row, hrow, rfl, hsub⟩ := h.answered _ hr id rfl
    obtain ⟨row', hrow', rfl, hsub'⟩ := h.answered _ hr' id' rfl
    simp only at hsub hsub'
    subst hsub hsub'
    obtain rfl := h.keys row hrow row' hrow' hws hkey hne
    exact ⟨rfl, rfl⟩

theorem append_answer {l : List (Submission × Except Refusal UUID)} {r r' : Submission}
    {a a' : Except Refusal UUID} (h : l ++ [(r, a)] = l ++ [(r', a')]) : r = r' ∧ a = a' := by
  have := List.append_cancel_left h
  simpa using this

theorem Change.lawful (hp : Keyed p) (h : Change p p') : Lawful Frozen p p' where
  moves row hrow := by
    obtain ⟨row', hrow', rfl | hstep⟩ := h.row hp hrow
    · exact ⟨row', hrow', rfl, Or.inl rfl, fun _ => Frozen.refl row'⟩
    · exact ⟨row', hrow', hstep.id_eq, hstep.status_eq, hstep.frozen⟩
  refuses row hrow r a hanswers hws hkey hne hdiff := by
    cases h with
    | idle hjobs haudit hhandled hidle =>
      rcases hidle with he | ⟨r', a', he, -, hrefused⟩
      · rw [he] at hanswers
        simp at hanswers
      · rw [he] at hanswers
        obtain ⟨rfl, rfl⟩ := append_answer hanswers
        exact ⟨hrefused row hrow hws hkey hne hdiff, hjobs⟩
    | insert r' id now hid hheld hjobs haudit hhandled he =>
      rw [he] at hanswers
      obtain ⟨rfl, rfl⟩ := append_answer hanswers
      exact absurd (keyHeld_eq_false hheld hrow hws hkey) hne
    | update old new hold hstep hjobs hran hhandled he =>
      rw [he] at hanswers
      simp at hanswers

/-- The job lifecycle over every run: any submissions, status changes, cancellation requests and
deliveries, in any order. -/
theorem lifecycle (registered : JobKind → Bool) (es : List Platform.Event) :
    (∀ p, run (Platform.step registered) .init es = some p → Consistent p) ∧
      Always (Platform.step registered) (fun p _ p' => Lawful Frozen p p') .init es := by
  constructor
  · intro p h
    have hinv : Inv p := run_preserves
      (fun q e q' hq hstep => (step_change hq.toKeyed hstep).inv hq) inv_init h
    exact hinv.consistent
  · refine always_of_preserves (fun q e q' hq hstep => ?_) inv_init es
    have hc := step_change hq.toKeyed hstep
    exact ⟨hc.inv hq, hc.lawful hq.toKeyed⟩

/-- The report of a handler that still runs moves `progress_at` of a job that has finished. -/
theorem progress_after_finish :
    ¬ ∀ es, Always (Platform.step fun _ => true)
      (fun p _ p' => Lawful (fun old new => Frozen old new ∧ new.progress_at = old.progress_at) p p')
      .init es := by
  intro h
  let submission : Submission := ⟨1, .modelFit, "{}", none⟩
  let started : List Platform.Event := [.lookup 0 submission, .insert 0 7 1, .deliver 0 7,
    .advance 0 2 "1.0+1" "", .transition 7 .failed .empty 3]
  obtain ⟨p, hp⟩ : ∃ p, run (Platform.step fun _ => true) .init started = some p := ⟨_, rfl⟩
  have hstep : ∃ p', Platform.step (fun _ => true) p (.progress 0 "0.5" 4) = some p' := by
    cases hp
    exact ⟨_, rfl⟩
  obtain ⟨p', hp'⟩ := hstep
  have hlaw := (h (started ++ [.progress 0 "0.5" 4])).last hp hp'
  cases hp
  cases hp'
  obtain ⟨row', hrow', -, -, hfrozen⟩ := hlaw.moves _ List.mem_cons_self
  obtain rfl := List.mem_singleton.mp hrow'
  exact absurd (hfrozen rfl).2 (by decide)

end GiPricing.Jobs
