import GiPricing.Modelling.Certification

/-! # What an objective's status rests on

A step moves at most one row, and only a Job that ends in `draft` or `certified` moves the
certificate a row names. A certificate that ends later stays behind: the row may come back to
`certified` with a newer certificate that it does not name.
-/

namespace GiPricing.Modelling.Objectives

open Failure Governance Transition

/-! ## What a step does -/

/-- What a call other than a certificate does to one row. -/
inductive RowMove (row : CustomObjectiveRow) : CustomObjectiveRow → Prop
  | derived (block : String) : RowMove row { row with derived := some block }
  | submitted (request_id : UUID) (h : row.status = .certified) :
      RowMove row { row with status := .review, approval_request_id := some request_id }
  | decided (target : ObjectiveStatus) (htarget : target = .approved ∨ target = .certified)
      (hvalid : target ∈ validObjectiveTransitions row.status)
      (hpointed : row.certificate_id.isSome) : RowMove row { row with status := target }

/-- The certificates, their events and the clock are as before. -/
structure Kept (s s' : Objectives) : Prop where
  certificates : s'.certificates = s.certificates
  events : s'.events = s.events
  clock : s'.clock = s.clock

inductive Steps (s s' : Objectives) : Prop
  | same (ho : s'.objectives = s.objectives) (hk : Kept s s')
  | created (row : CustomObjectiveRow) (hid : ∀ o ∈ s.objectives, o.id ≠ row.id)
      (hdraft : row.status = .draft) (hunset : row.certificate_id = none)
      (ho : s'.objectives = s.objectives ++ [row]) (hk : Kept s s')
  | moved (row row' : CustomObjectiveRow) (hrow : row ∈ s.objectives) (hmove : RowMove row row')
      (ho : s'.objectives = (s.put row').objectives) (hk : Kept s s')
  | recorded (job : CertifyJob) (row : CustomObjectiveRow) (certificate_id : UUID)
      (result : CertificateResult) (hrow : row ∈ s.objectives)
      (hws : row.workspace_id = job.workspace_id)
      (hid : ∀ c ∈ s.certificates, c.id ≠ certificate_id)
      (ho : s'.objectives =
        (s.put (certifiedRow row (s.certificateOf job row certificate_id result))).objectives)
      (hc : s'.certificates = s.certificates ++ [s.certificateOf job row certificate_id result])
      (he : s'.events = s.events ++
        [⟨certificateAction row (s.certificateOf job row certificate_id result), row.status,
          (certifiedRow row (s.certificateOf job row certificate_id result)).status,
          certificate_id, result.overall⟩])
      (hclock : s'.clock = s.clock + 1)

section Calls

variable {derive : String → Except String String} {s s' : Objectives}
  {row row' : CustomObjectiveRow}

theorem getOr404_eq_ok {w id : UUID} (h : s.getOr404 w id = .ok row) :
    row ∈ s.objectives ∧ row.id = id ∧ row.workspace_id = w := by
  rw [getOr404, require_eq_ok] at h
  have hp := List.find?_some h
  rw [decide_eq_true_eq] at hp
  exact ⟨List.mem_of_find?_eq_some h, hp⟩

theorem objective?_eq_some {w : UUID} {ref : Governance.ArtifactRef}
    (h : s.objective? w ref = some row) : row ∈ s.objectives :=
  List.mem_of_find?_eq_some h

theorem flush_eq_ok (h : s.flush row = .ok s') :
    s' = s.put row ∧
      (row.status = .draft ∨ row.status = .deprecated ∨ row.certificate_id.isSome = true) := by
  simp only [flush, ensure_bind_eq_ok, pure_eq_ok] at h
  exact ⟨h.2.symm, h.1⟩

theorem createObjective_steps {c : Create} (hid : ∀ o ∈ s.objectives, o.id ≠ c.id)
    (h : s.createObjective c = .ok s') : Steps s s' := by
  simp only [createObjective, bind_eq_ok, ensure_eq_ok, pure_eq_ok] at h
  obtain ⟨-, -, -, -, rfl⟩ := h
  exact .created _ hid rfl rfl rfl ⟨rfl, rfl, rfl⟩

theorem deriveObjective_steps {c : Call} (h : s.deriveObjective derive c = .ok s') :
    Steps s s' := by
  simp only [deriveObjective, bind_eq_ok, ensure_eq_ok, require_eq_ok, pure_eq_ok] at h
  obtain ⟨row, hrow, -, -, -, -, -, -, block, -, t, ht, rfl⟩ := h
  obtain ⟨rfl, -⟩ := flush_eq_ok ht
  exact .moved row _ (getOr404_eq_ok hrow).1 (.derived block) rfl ⟨rfl, rfl, rfl⟩

theorem certify_steps {c : Call} {job_id : UUID} (h : s.certify c job_id = .ok s') :
    Steps s s' := by
  simp only [certify, bind_eq_ok, pure_eq_ok] at h
  obtain ⟨-, -, rfl⟩ := h
  exact .same rfl ⟨rfl, rfl, rfl⟩

theorem recordCertificate_steps {job : CertifyJob} {actor certificate_id : UUID}
    {result : CertificateResult} (hid : ∀ c ∈ s.certificates, c.id ≠ certificate_id)
    (h : s.recordCertificate job actor certificate_id result = .ok s') : Steps s s' := by
  simp only [recordCertificate, bind_eq_ok, pure_eq_ok] at h
  obtain ⟨row, hrow, t, ht, rfl⟩ := h
  obtain ⟨rfl, -⟩ := flush_eq_ok ht
  obtain ⟨hmem, -, hws⟩ := getOr404_eq_ok hrow
  exact .recorded job row certificate_id result hmem hws hid rfl rfl rfl rfl

/-- What a submission has checked of the row, and what it writes. -/
structure Submitted (s s' : Objectives) (c : Review) (request : ApprovalRequestRow)
    (row : CustomObjectiveRow) : Prop where
  loaded : s.getOr404 c.call.workspace_id c.call.objective_id = .ok row
  certified : row.status = .certified
  steps : Steps s s'
  submit : ∃ approvals, Governance.submit s.approvals ⟨c.approval_id, c.call.workspace_id,
    c.call.actor, row.ref, c.change_summary, none,
    if ∃ d ∈ s.latest c.call.workspace_id c.call.objective_id, d.NonConvex then 1 else 0⟩ (.ok ⟨⟩) =
      .ok (approvals, request)

theorem submitForReview_eq_ok {c : Review} {request : ApprovalRequestRow}
    (h : s.submitForReview c = .ok (s', request)) : ∃ row, Submitted s s' c request row := by
  simp only [submitForReview, bind_eq_ok, ensure_eq_ok, require_eq_ok, mapError_eq_ok, pure_eq_ok,
    Prod.mk.injEq] at h
  obtain ⟨-, -, row, hrow, -, -, -, hvalid, -, -, -, -, -, -, ⟨approvals, request'⟩, hsubmit, t, ht,
    rfl, rfl⟩ := h
  obtain ⟨rfl, -⟩ := flush_eq_ok ht
  have hcertified : row.status = .certified := by
    revert hvalid
    cases row.status <;> simp [validObjectiveTransitions]
  refine ⟨row, hrow, hcertified, ?_, approvals, hsubmit⟩
  exact .moved row _ (getOr404_eq_ok hrow).1 (.submitted _ hcertified) rfl ⟨rfl, rfl, rfl⟩

theorem targetStatus_cases {status : ApprovalStatus} {target : ObjectiveStatus}
    (h : targetStatus status = some target) : target = .approved ∨ target = .certified := by
  cases status <;> cases h <;> simp

theorem applyApprovalDecision_steps {approvals : Store} {actor : UUID}
    {request : ApprovalRequestRow}
    (h : applyApprovalDecision { s with approvals := approvals } actor request = .ok s') :
    Steps s s' := by
  unfold applyApprovalDecision at h
  split_ifs at h with htype
  · cases h
    exact .same rfl ⟨rfl, rfl, rfl⟩
  · split at h
    · cases h
      exact .same rfl ⟨rfl, rfl, rfl⟩
    · cases h
      exact .same rfl ⟨rfl, rfl, rfl⟩
    · rename_i row target hrow htarget
      split_ifs at h with heq
      · cases h
        exact .same rfl ⟨rfl, rfl, rfl⟩
      · simp only [bind_eq_ok, ensure_eq_ok, pure_eq_ok] at h
        obtain ⟨-, hvalid, t, ht, rfl⟩ := h
        obtain ⟨rfl, hcheck⟩ := flush_eq_ok ht
        have ht := targetStatus_cases htarget
        -- under such a status the table's check asks for a certificate
        have hpointed : row.certificate_id.isSome := by
          rcases ht with rfl | rfl <;> simpa using hcheck
        exact .moved row _ (objective?_eq_some hrow) (.decided target ht hvalid hpointed) rfl
          ⟨rfl, rfl, rfl⟩

theorem committed_steps {r : Except ObjectiveRefusal Objectives} {t : Objectives}
    (hr : ∀ u, r = .ok u → Steps s u) (ht : Steps s t) (h : t.committed r = s') : Steps s s' := by
  cases r with
  | ok u =>
    cases h
    exact hr u rfl
  | error e =>
    cases h
    exact ht

theorem steps_self (s : Objectives) : Steps s s := .same rfl ⟨rfl, rfl, rfl⟩

theorem Steps.of_jobs {jobs : List CertifyJob} (h : Steps { s with jobs := jobs } s') :
    Steps s s' := by
  cases h with
  | same ho hk => exact .same ho ⟨hk.1, hk.2, hk.3⟩
  | created row hid hdraft hunset ho hk =>
    exact .created row hid hdraft hunset ho ⟨hk.1, hk.2, hk.3⟩
  | moved row row' hrow hmove ho hk => exact .moved row row' hrow hmove ho ⟨hk.1, hk.2, hk.3⟩
  | recorded job row id result hrow hws hid ho hc he hclock =>
    exact .recorded job row id result hrow hws hid ho hc he hclock

theorem steps_of_step {e : ObjectiveEvent} (h : s.step derive e = some s') : Steps s s' := by
  cases e with
  | create c =>
    simp only [step] at h
    split_ifs at h with hid
    exact committed_steps (fun u hu => createObjective_steps hid hu) (steps_self s)
      (Option.some.inj h)
  | derive c =>
    exact committed_steps (fun u hu => deriveObjective_steps hu) (steps_self s) (Option.some.inj h)
  | certify c job_id =>
    exact committed_steps (fun u hu => certify_steps hu) (steps_self s) (Option.some.inj h)
  | certificate job actor certificate_id result =>
    simp only [step] at h
    split_ifs at h with hen
    apply Steps.of_jobs
    exact @committed_steps { s with jobs := s.jobs.erase job } s' _ _
      (fun u hu => recordCertificate_steps hen.2 hu) (steps_self _) (Option.some.inj h)
  | jobFails job =>
    simp only [step] at h
    split_ifs at h with hjob
    cases h
    exact .same rfl ⟨rfl, rfl, rfl⟩
  | submitForReview c =>
    apply committed_steps (fun u hu => ?_) (steps_self s) (Option.some.inj h)
    obtain ⟨⟨t, request⟩, ht, rfl⟩ := map_eq_ok.mp hu
    obtain ⟨row, hs⟩ := submitForReview_eq_ok ht
    exact hs.steps
  | decide d =>
    apply committed_steps (fun u hu => ?_) (steps_self s) (Option.some.inj h)
    obtain ⟨⟨approvals, request⟩, -, hu⟩ := bind_eq_ok.mp hu
    exact applyApprovalDecision_steps hu
  | withdraw w live =>
    apply committed_steps (fun u hu => ?_) (steps_self s) (Option.some.inj h)
    obtain ⟨⟨approvals, request⟩, -, hu⟩ := bind_eq_ok.mp hu
    exact applyApprovalDecision_steps hu
  | submit c resolve =>
    apply committed_steps (fun u hu => ?_) (steps_self s) (Option.some.inj h)
    obtain ⟨q, -, rfl⟩ := map_eq_ok.mp hu
    exact .same rfl ⟨rfl, rfl, rfl⟩
  | setPolicy workspace_id policy =>
    cases h
    exact .same rfl ⟨rfl, rfl, rfl⟩
  | record e =>
    cases h
    exact .same rfl ⟨rfl, rfl, rfl⟩

end Calls

/-! ## The evidence of a status -/

/-- The statuses that claim a certificate. -/
def Backed (status : ObjectiveStatus) : Prop :=
  status = .certified ∨ status = .review ∨ status = .approved

/-- A certificate of this objective, at this version. -/
def Of (row : CustomObjectiveRow) (c : ObjectiveCertificateRow) : Prop :=
  c.workspace_id = row.workspace_id ∧ c.custom_objective_id = row.id ∧
    c.objective_version = row.version

/-- The certificate was recorded while its objective was past `certified`. -/
def Late (s : Objectives) (c : ObjectiveCertificateRow) : Prop :=
  ∃ e ∈ s.events, e.certificate_id = c.id ∧ e.action = "custom_objective.certificate_recorded" ∧
    e.before ≠ .draft ∧ e.before ≠ .certified

/-- The row names a certificate of its own that has not failed, and what was recorded after that
one was recorded late. -/
def Evidence (s : Objectives) (row : CustomObjectiveRow) : Prop :=
  ∃ c ∈ s.certificates, row.certificate_id = some c.id ∧ Of row c ∧ c.result.overall ≠ .failed ∧
    ∀ d ∈ s.certificates, d.custom_objective_id = row.id → c.certified_at < d.certified_at →
      Late s d

structure Inv (s : Objectives) : Prop where
  ids : (s.objectives.map (·.id)).Nodup
  certificate_ids : (s.certificates.map (·.id)).Nodup
  times : (s.certificates.map (·.certified_at)).Nodup
  clock : ∀ c ∈ s.certificates, c.certified_at < s.clock
  unset : ∀ row ∈ s.objectives, row.status = .draft → row.certificate_id = none
  evidence : ∀ row ∈ s.objectives, Backed row.status → Evidence s row

section Moves

variable {s s' : Objectives} {row row' o : CustomObjectiveRow}

/-- What no call but a certificate's changes in a row. -/
def SameEvidence (row row' : CustomObjectiveRow) : Prop :=
  row'.id = row.id ∧ row'.workspace_id = row.workspace_id ∧ row'.version = row.version ∧
    row'.certificate_id = row.certificate_id

theorem RowMove.keeps (h : RowMove row row') : SameEvidence row row' := by
  cases h <;> exact ⟨rfl, rfl, rfl, rfl⟩

theorem RowMove.follows (h : RowMove row row') :
    row'.status = row.status ∨ row'.status ∈ validObjectiveTransitions row.status := by
  cases h with
  | derived block => exact Or.inl rfl
  | submitted request_id hcertified =>
    rw [hcertified]
    exact Or.inr List.mem_cons_self
  | decided target htarget hvalid hpointed => exact Or.inr hvalid

theorem RowMove.backed (h : RowMove row row') (hb : Backed row'.status) :
    Backed row.status ∨ row.status = .draft ∧ row.certificate_id.isSome := by
  cases h with
  | derived block => exact Or.inl hb
  | submitted request_id hcertified => exact Or.inl (Or.inl hcertified)
  | decided target htarget hvalid hpointed =>
    unfold Backed
    revert hvalid
    rcases htarget with rfl | rfl <;> cases row.status <;>
      simp [validObjectiveTransitions, hpointed]

theorem RowMove.draft (h : RowMove row row') (hd : row'.status = .draft) : row.status = .draft := by
  cases h with
  | derived block => exact hd
  | submitted request_id hcertified => cases hd
  | decided target htarget hvalid hpointed => rcases htarget with rfl | rfl <;> cases hd

theorem Evidence.mono (h : Evidence s row) (hr : SameEvidence row row') (hk : Kept s s') :
    Evidence s' row' := by
  obtain ⟨c, hc, hp, hof, hfailed, hlate⟩ := h
  obtain ⟨hid, hws, hv, hcert⟩ := hr
  refine ⟨c, hk.certificates ▸ hc, hcert.trans hp, ?_, hfailed, fun d hd hdo hlt => ?_⟩
  · unfold Of
    rwa [hid, hws, hv]
  · unfold Late
    rw [hk.events]
    exact hlate d (hk.certificates ▸ hd) (hdo.trans hid) hlt

/-- The rows after one is written back. -/
theorem mem_put (hrow : row ∈ s.objectives) (hid : row'.id = row.id) :
    o ∈ (s.put row').objectives ↔ o = row' ∨ o ∈ s.objectives ∧ o.id ≠ row.id := by
  simp only [put, List.mem_map, hid]
  constructor
  · rintro ⟨q, hq, rfl⟩
    split_ifs with h
    · exact Or.inl rfl
    · exact Or.inr ⟨hq, h⟩
  · rintro (rfl | ⟨ho, hne⟩)
    · exact ⟨row, hrow, if_pos rfl⟩
    · exact ⟨o, ho, if_neg hne⟩

theorem ids_put (s : Objectives) (row : CustomObjectiveRow) :
    (s.put row).objectives.map (·.id) = s.objectives.map (·.id) := by
  rw [put, List.map_map]
  apply List.map_congr_left
  intro o _
  simp only [Function.comp_apply]
  split_ifs with h
  · exact h.symm
  · rfl

theorem certifiedRow_cases (row : CustomObjectiveRow) (c : ObjectiveCertificateRow) :
    (certifiedRow row c = row ∧ row.status ≠ .draft ∧ row.status ≠ .certified ∧
        certificateAction row c = "custom_objective.certificate_recorded") ∨
      ((row.status = .draft ∨ row.status = .certified) ∧
        certifiedRow row c = { row with status := .draft, certificate_id := none }) ∨
      ((row.status = .draft ∨ row.status = .certified) ∧ c.result.overall ≠ .failed ∧
        certifiedRow row c = { row with status := .certified, certificate_id := some c.id }) := by
  unfold certifiedRow certificateAction
  by_cases hm : row.status = .draft ∨ row.status = .certified
  · by_cases hf : c.result.overall = .failed
    · exact Or.inr (Or.inl ⟨hm, by rw [if_pos hm, if_pos hf]⟩)
    · exact Or.inr (Or.inr ⟨hm, hf, by rw [if_pos hm, if_neg hf]⟩)
  · rw [if_neg hm, if_neg hm]
    exact Or.inl ⟨rfl, fun h => hm (Or.inl h), fun h => hm (Or.inr h), rfl⟩

theorem certifiedRow_keeps (row : CustomObjectiveRow) (c : ObjectiveCertificateRow) :
    (certifiedRow row c).id = row.id ∧ (certifiedRow row c).workspace_id = row.workspace_id ∧
      (certifiedRow row c).version = row.version := by
  rcases certifiedRow_cases row c with ⟨h, -⟩ | ⟨-, h⟩ | ⟨-, -, h⟩ <;> rw [h] <;>
    exact ⟨rfl, rfl, rfl⟩

theorem certifiedRow_follows (row : CustomObjectiveRow) (c : ObjectiveCertificateRow) :
    (certifiedRow row c).status = row.status ∨
      (certifiedRow row c).status ∈ validObjectiveTransitions row.status := by
  rcases certifiedRow_cases row c with ⟨h, -⟩ | ⟨hs, h⟩ | ⟨hs, -, h⟩
  · exact Or.inl (congrArg _ h)
  · rcases hs with hs | hs <;> rw [h, hs] <;> simp [validObjectiveTransitions]
  · rcases hs with hs | hs <;> rw [h, hs] <;> simp [validObjectiveTransitions]

end Moves

/-! ## Runs -/

section Runs

variable {derive : String → Except String String} {s s' : Objectives} {row : CustomObjectiveRow}

theorem nodup_concat {α : Type*} {f : α → ℕ} {l : List α} {a : α} (h : (l.map f).Nodup)
    (ha : ∀ b ∈ l, f b ≠ f a) : ((l ++ [a]).map f).Nodup := by
  rw [List.map_append, List.nodup_append]
  refine ⟨h, List.nodup_singleton _, ?_⟩
  intro x hx y hy
  obtain ⟨b, hb, rfl⟩ := List.mem_map.mp hx
  rw [List.map_singleton, List.mem_singleton] at hy
  exact hy ▸ ha b hb

theorem Inv.of_kept (h : Inv s) (hk : Kept s s') (hids : (s'.objectives.map (·.id)).Nodup)
    (hunset : ∀ row ∈ s'.objectives, row.status = .draft → row.certificate_id = none)
    (hevidence : ∀ row ∈ s'.objectives, Backed row.status → Evidence s' row) : Inv s' where
  ids := hids
  certificate_ids := by
    rw [hk.certificates]
    exact h.certificate_ids
  times := by
    rw [hk.certificates]
    exact h.times
  clock := by
    rw [hk.certificates, hk.clock]
    exact h.clock
  unset := hunset
  evidence := hevidence

theorem Inv.moved {row' : CustomObjectiveRow} (h : Inv s) (hrow : row ∈ s.objectives)
    (hmove : RowMove row row') (ho : s'.objectives = (s.put row').objectives) (hk : Kept s s') :
    Inv s' := by
  apply h.of_kept hk
  · rw [ho, ids_put]
    exact h.ids
  · intro o hmem hd
    rw [ho, mem_put hrow hmove.keeps.1] at hmem
    rcases hmem with rfl | ⟨hmem, -⟩
    · exact hmove.keeps.2.2.2.trans (h.unset row hrow (hmove.draft hd))
    · exact h.unset o hmem hd
  · intro o hmem hb
    rw [ho, mem_put hrow hmove.keeps.1] at hmem
    rcases hmem with rfl | ⟨hmem, -⟩
    · rcases hmove.backed hb with hb | ⟨hd, hp⟩
      · exact (h.evidence row hrow hb).mono hmove.keeps hk
      · -- a draft names no certificate, so the table's check has stopped the move
        rw [h.unset row hrow hd] at hp
        cases hp
    · exact (h.evidence o hmem hb).mono ⟨rfl, rfl, rfl, rfl⟩ hk

theorem Inv.created (h : Inv s) (hid : ∀ o ∈ s.objectives, o.id ≠ row.id)
    (hdraft : row.status = .draft) (hunset : row.certificate_id = none)
    (ho : s'.objectives = s.objectives ++ [row]) (hk : Kept s s') : Inv s' := by
  apply h.of_kept hk
  · rw [ho]
    exact nodup_concat h.ids hid
  · intro o hmem hd
    rw [ho, List.mem_append, List.mem_singleton] at hmem
    rcases hmem with hmem | rfl
    · exact h.unset o hmem hd
    · exact hunset
  · intro o hmem hb
    rw [ho, List.mem_append, List.mem_singleton] at hmem
    rcases hmem with hmem | rfl
    · exact (h.evidence o hmem hb).mono ⟨rfl, rfl, rfl, rfl⟩ hk
    · rw [hdraft] at hb
      rcases hb with hb | hb | hb <;> cases hb

theorem Inv.recorded (h : Inv s) {job : CertifyJob} {certificate_id : UUID}
    {result : CertificateResult} (hrow : row ∈ s.objectives)
    (hws : row.workspace_id = job.workspace_id) (hid : ∀ c ∈ s.certificates, c.id ≠ certificate_id)
    (ho : s'.objectives =
      (s.put (certifiedRow row (s.certificateOf job row certificate_id result))).objectives)
    (hc : s'.certificates = s.certificates ++ [s.certificateOf job row certificate_id result])
    (he : s'.events = s.events ++
      [⟨certificateAction row (s.certificateOf job row certificate_id result), row.status,
        (certifiedRow row (s.certificateOf job row certificate_id result)).status,
        certificate_id, result.overall⟩])
    (hclock : s'.clock = s.clock + 1) : Inv s' := by
  set c := s.certificateOf job row certificate_id result with hcdef
  obtain ⟨hkid, hkws, hkv⟩ := certifiedRow_keeps row c
  have hlate : ∀ d, Late s d → Late s' d := by
    rintro d ⟨e, hemem, hd⟩
    exact ⟨e, he ▸ List.mem_append_left _ hemem, hd⟩
  refine ⟨?_, ?_, ?_, ?_, ?_, ?_⟩
  · rw [ho, ids_put]
    exact h.ids
  · rw [hc]
    exact nodup_concat h.certificate_ids hid
  · rw [hc]
    exact nodup_concat h.times fun d hd => (h.clock d hd).ne
  · rw [hc, hclock]
    intro d hd
    rw [List.mem_append, List.mem_singleton] at hd
    rcases hd with hd | rfl
    · exact (h.clock d hd).trans (Nat.lt_succ_self _)
    · exact Nat.lt_succ_self _
  · intro o hmem hd
    rw [ho, mem_put hrow hkid] at hmem
    rcases hmem with rfl | ⟨hmem, -⟩
    · rcases certifiedRow_cases row c with ⟨heq, hne, -⟩ | ⟨-, heq⟩ | ⟨-, -, heq⟩
      · rw [heq] at hd
        exact absurd hd hne
      · rw [heq]
      · rw [heq] at hd
        cases hd
    · exact h.unset o hmem hd
  · intro o hmem hb
    rw [ho, mem_put hrow hkid] at hmem
    rcases hmem with rfl | ⟨hmem, hne⟩
    · rcases certifiedRow_cases row c with ⟨heq, hnd, hnc, hact⟩ | ⟨-, heq⟩ | ⟨-, hf, heq⟩
      · -- a late certificate: the row stays with the one it names
        rw [heq] at hb ⊢
        obtain ⟨p, hp, hcert, hof, hfailed, hafter⟩ := h.evidence row hrow hb
        refine ⟨p, hc ▸ List.mem_append_left _ hp, hcert, hof, hfailed, fun d hd hdo hlt => ?_⟩
        rw [hc, List.mem_append, List.mem_singleton] at hd
        rcases hd with hd | rfl
        · exact hlate d (hafter d hd hdo hlt)
        · exact ⟨_, he ▸ List.mem_append_right _ List.mem_cons_self, rfl, hact, hnd, hnc⟩
      · rw [heq] at hb
        rcases hb with hb | hb | hb <;> cases hb
      · -- a certificate of a `draft` or `certified` row is the one it names from now on
        refine ⟨c, hc ▸ List.mem_append_right _ List.mem_cons_self, ?_, ?_, hf, ?_⟩
        · rw [heq]
        · exact ⟨hws.symm.trans hkws.symm, hkid.symm, hkv.symm⟩
        · intro d hd hdo hlt
          rw [hc, List.mem_append, List.mem_singleton] at hd
          rcases hd with hd | rfl
          · exact absurd (h.clock d hd) hlt.not_gt
          · exact absurd hlt (lt_irrefl _)
    · obtain ⟨p, hp, hcert, hof, hfailed, hafter⟩ := h.evidence o hmem hb
      refine ⟨p, hc ▸ List.mem_append_left _ hp, hcert, hof, hfailed, fun d hd hdo hlt => ?_⟩
      rw [hc, List.mem_append, List.mem_singleton] at hd
      rcases hd with hd | rfl
      · exact hlate d (hafter d hd hdo hlt)
      · exact absurd hdo.symm hne

theorem Steps.inv (hs : Steps s s') (h : Inv s) : Inv s' := by
  cases hs with
  | same ho hk =>
    apply h.of_kept hk
    · rw [ho]
      exact h.ids
    · rw [ho]
      exact h.unset
    · rw [ho]
      exact fun o hmem hb => (h.evidence o hmem hb).mono ⟨rfl, rfl, rfl, rfl⟩ hk
  | created row hid hdraft hunset ho hk => exact h.created hid hdraft hunset ho hk
  | moved row row' hrow hmove ho hk => exact h.moved hrow hmove ho hk
  | recorded job row id result hrow hws hid ho hc he hclock =>
    exact h.recorded hrow hws hid ho hc he hclock

theorem init_inv (policies : UUID → ApprovalPolicy) : Inv (init policies) where
  ids := List.nodup_nil
  certificate_ids := List.nodup_nil
  times := List.nodup_nil
  clock _ hc := nomatch hc
  unset _ hr := nomatch hr
  evidence _ hr := nomatch hr

/-- Every objective is still there, at the same status or at one its status may move to. -/
def Follows (s s' : Objectives) : Prop :=
  ∀ row ∈ s.objectives, ∃ row' ∈ s'.objectives, row'.id = row.id ∧
    (row'.status = row.status ∨ row'.status ∈ validObjectiveTransitions row.status)

/-- The newest certificate of an objective. -/
def Latest (s : Objectives) (row : CustomObjectiveRow) (d : ObjectiveCertificateRow) : Prop :=
  d ∈ s.certificates ∧ d.workspace_id = row.workspace_id ∧ d.custom_objective_id = row.id ∧
    ∀ d' ∈ s.certificates, d'.workspace_id = row.workspace_id → d'.custom_objective_id = row.id →
      d'.certified_at ≤ d.certified_at

/-- What a submission asks of the Approvers: the policy's count, and one more exactly when the
newest certificate is not convex. That is the one the row names, or a late one. -/
def Demands (s : Objectives) (c : Review) (request : ApprovalRequestRow) : Prop :=
  ∃ row ∈ s.objectives, row.id = c.call.objective_id ∧ row.status = .certified ∧
    ∃ d, Latest s row d ∧ (row.certificate_id = some d.id ∨ Late s d) ∧
      ∃ entry, (s.approvals.policies c.call.workspace_id).entryFor "custom_objective" none =
          some entry ∧
        request.approvers_required = entry.approvers_required + if d.NonConvex then 1 else 0

theorem follows_put {row' : CustomObjectiveRow} (hrow : row ∈ s.objectives)
    (hid : row'.id = row.id) (hids : (s.objectives.map (·.id)).Nodup)
    (ho : s'.objectives = (s.put row').objectives)
    (hst : row'.status = row.status ∨ row'.status ∈ validObjectiveTransitions row.status) :
    Follows s s' := by
  intro o hmem
  by_cases h : o.id = row.id
  · obtain rfl := List.inj_on_of_nodup_map hids hmem hrow h
    exact ⟨row', by rw [ho, mem_put hrow hid]; exact Or.inl rfl, hid, hst⟩
  · exact ⟨o, by rw [ho, mem_put hrow hid]; exact Or.inr ⟨hmem, h⟩, rfl, Or.inl rfl⟩

theorem Steps.follows (hs : Steps s s') (h : Inv s) : Follows s s' := by
  cases hs with
  | same ho hk => exact fun o hmem => ⟨o, ho ▸ hmem, rfl, Or.inl rfl⟩
  | created row hid hdraft hunset ho hk =>
    exact fun o hmem => ⟨o, ho ▸ List.mem_append_left _ hmem, rfl, Or.inl rfl⟩
  | moved row row' hrow hmove ho hk =>
    exact follows_put hrow hmove.keeps.1 h.ids ho hmove.follows
  | recorded job row id result hrow hws hid ho hc he hclock =>
    exact follows_put hrow (certifiedRow_keeps row _).1 h.ids ho (certifiedRow_follows row _)

theorem mem_certificatesOf {w id : UUID} {d : ObjectiveCertificateRow} :
    d ∈ s.certificatesOf w id ↔
      d ∈ s.certificates ∧ d.workspace_id = w ∧ d.custom_objective_id = id := by
  rw [certificatesOf, List.mem_filter, decide_eq_true_eq]

theorem latest_eq_some {d : ObjectiveCertificateRow}
    (h : s.latest row.workspace_id row.id = some d) : Latest s row d := by
  obtain ⟨hd, hws, hid⟩ := mem_certificatesOf.mp (List.argmax_mem h)
  exact ⟨hd, hws, hid, fun d' hd' hws' hid' =>
    List.le_of_mem_argmax (mem_certificatesOf.mpr ⟨hd', hws', hid'⟩) h⟩

theorem Evidence.exists_latest (h : Inv s) (he : Evidence s row) :
    ∃ d, s.latest row.workspace_id row.id = some d ∧
      (row.certificate_id = some d.id ∨ Late s d) := by
  obtain ⟨c, hc, hcert, ⟨hws, hid, -⟩, -, hlate⟩ := he
  cases hl : s.latest row.workspace_id row.id with
  | none =>
    have hmem := mem_certificatesOf.mpr ⟨hc, hws, hid⟩
    rw [List.argmax_eq_none.mp hl] at hmem
    cases hmem
  | some d =>
    obtain ⟨hd, -, hdo, hmax⟩ := latest_eq_some hl
    refine ⟨d, rfl, ?_⟩
    rcases (hmax c hc hws hid).lt_or_eq with hlt | heq
    · exact Or.inr (hlate d hd hdo hlt)
    · obtain rfl := List.inj_on_of_nodup_map h.times hc hd heq
      exact Or.inl hcert

theorem submit_approvers {g g' : Store} {request : ApprovalRequestRow} {c : Submission}
    {resolve : Except Governance.Refusal PUnit} (h : submit g c resolve = .ok (g', request)) :
    ∃ entry, (g.policies c.workspace_id).entryFor c.artifact_ref.type c.environment = some entry ∧
      request.approvers_required = entry.approvers_required + c.additional_approvers := by
  simp only [submit, bind_eq_ok, ensure_eq_ok, require_eq_ok, pure_eq_ok, Prod.mk.injEq] at h
  obtain ⟨-, -, entry, hentry, -, -, -, -, -, rfl⟩ := h
  exact ⟨entry, hentry, rfl⟩

theorem Inv.demands (h : Inv s) {c : Review} {request : ApprovalRequestRow}
    (hs : s.submitForReview c = .ok (s', request)) : Demands s c request := by
  obtain ⟨row, hsub⟩ := submitForReview_eq_ok hs
  obtain ⟨hrow, hid, hws⟩ := getOr404_eq_ok hsub.loaded
  obtain ⟨approvals, hsubmit⟩ := hsub.submit
  obtain ⟨entry, hentry, hcount⟩ := submit_approvers hsubmit
  obtain ⟨d, hd, hlate⟩ := (h.evidence row hrow (Or.inl hsub.certified)).exists_latest h
  refine ⟨row, hrow, hid, hsub.certified, d, latest_eq_some hd, hlate, entry, hentry, ?_⟩
  rw [hcount, ← hid, ← hws, hd]
  simp only [Option.mem_some_iff, exists_eq_left']

/-- The status of an objective rests on a certificate of its own, which is the newest one but for
those that a Job has recorded past `certified`. -/
theorem evidence_of_run {policies : UUID → ApprovalPolicy} {events : List ObjectiveEvent}
    (h : run (step derive) (init policies) events = some s) :
    Always (step derive) (fun s _ s' => Follows s s') (init policies) events ∧
      (s.certificates.map (·.id)).Nodup ∧
      (∀ row ∈ s.objectives, Backed row.status → Evidence s row) ∧
      ∀ c s' request, s.submitForReview c = .ok (s', request) → Demands s c request := by
  have hstep : ∀ s e s', Inv s → step derive s e = some s' → Inv s' ∧ Follows s s' :=
    fun s e s' hi hs => ⟨(steps_of_step hs).inv hi, (steps_of_step hs).follows hi⟩
  have hinv : Inv s :=
    run_preserves (fun s e s' hi hs => (hstep s e s' hi hs).1) (init_inv policies) h
  refine ⟨?_, hinv.certificate_ids, hinv.evidence, fun c s' request hs => hinv.demands hs⟩
  exact always_of_preserves hstep (init_inv policies) events

/-! ### A certificate that ends under review -/

theorem one_of_five : 1 ≤ 1 ∧ 1 ≤ 5 := by decide

def objectivePolicy : ApprovalPolicy :=
  ⟨[⟨"custom_objective", 1, ["approver"], none, [], one_of_five⟩]⟩

/-- The nine checks, which all pass but for two. -/
def battery (convexity smoke_fit : CheckStatus) : List CertificateCheck :=
  [⟨"analytic_vs_numeric_gradient", .pass⟩, ⟨"analytic_vs_numeric_hessian", .pass⟩,
    ⟨"finiteness", .pass⟩, ⟨"convexity", convexity⟩, ⟨"branch_discontinuity", .pass⟩,
    ⟨"minimum_at_truth", .pass⟩, ⟨"monotone_loss", .pass⟩, ⟨"scale_behaviour", .pass⟩,
    ⟨"smoke_fit", smoke_fit⟩]

def resultOf (checks : List CertificateCheck) : CertificateResult := ⟨checks, outcomeOf checks, rfl⟩

/-- Two Jobs are queued. The first one passes, and the objective is submitted; the second one fails
under the review, and changes are requested. -/
def lateFailure : List ObjectiveEvent :=
  let author : Call := ⟨1, ⟨7, [], []⟩, true, 1⟩
  [.create ⟨1, 1, ⟨7, [], []⟩, true, "tail", .template, none, .ok ⟨⟩⟩, .certify author 1,
    .certify author 2, .certificate ⟨1, 1, 1⟩ 7 10 (resultOf (battery .pass .pass)),
    .submitForReview ⟨1, ⟨1, ⟨8, [], []⟩, true, 1⟩, "a heavier tail", ["objective_certificate"]⟩,
    .certificate ⟨2, 1, 1⟩ 7 11 (resultOf (battery .violated .failed)),
    .decide ⟨1, 1, ⟨9, [.approvalDecide], ["approver"]⟩, .requestChanges, some "so heavy?", none⟩]

theorem evidence_lateFailure :
    ∃ s, run (step .ok) (init fun _ => objectivePolicy) lateFailure = some s ∧
      s.objectives.map (·.status) = [.certified] ∧
      ∀ row ∈ s.objectives, Backed row.status → Evidence s row := by
  have hstatus : (run (step .ok) (init fun _ => objectivePolicy) lateFailure).map
      (fun s => s.objectives.map (·.status)) = some [.certified] := by decide
  obtain ⟨s, hs, hst⟩ := Option.map_eq_some_iff.mp hstatus
  exact ⟨s, hs, hst, (evidence_of_run hs).2.2.1⟩

/-- The objective is back in `certified` on a certificate that passed, while its newest one failed;
and the next submission asks for one more Approver, because of a check of the newest one. -/
theorem lateFailure_stays :
    ∃ s, run (step .ok) (init fun _ => objectivePolicy) lateFailure = some s ∧
      ∃ row ∈ s.objectives, row.status = .certified ∧
        ∃ c ∈ s.certificates, row.certificate_id = some c.id ∧ ¬ c.NonConvex ∧
          (∃ d ∈ s.certificates, d.custom_objective_id = row.id ∧
            c.certified_at < d.certified_at ∧ d.result.overall = .failed) ∧
          ((s.submitForReview ⟨2, ⟨1, ⟨8, [], []⟩, true, 1⟩, "explained",
            ["objective_certificate"]⟩).toOption.map (·.2.approvers_required)) = some 2 := by
  have hrun : (run (step .ok) (init fun _ => objectivePolicy) lateFailure).map (fun s => decide
      (∃ row ∈ s.objectives, row.status = .certified ∧
        ∃ c ∈ s.certificates, row.certificate_id = some c.id ∧ ¬ c.NonConvex ∧
          (∃ d ∈ s.certificates, d.custom_objective_id = row.id ∧
            c.certified_at < d.certified_at ∧ d.result.overall = .failed) ∧
          ((s.submitForReview ⟨2, ⟨1, ⟨8, [], []⟩, true, 1⟩, "explained",
            ["objective_certificate"]⟩).toOption.map (·.2.approvers_required)) = some 2)) =
      some true := by decide
  obtain ⟨s, hs, hd⟩ := Option.map_eq_some_iff.mp hrun
  exact ⟨s, hs, of_decide_eq_true hd⟩

end Runs

end GiPricing.Modelling.Objectives
