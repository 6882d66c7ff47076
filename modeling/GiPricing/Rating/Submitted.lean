import GiPricing.Rating.Evidence
import GiPricing.Transition.Run

/-! # Whose evidence a version in review carries

The evidence of a submission is written over what is stored. A key of an earlier submission
therefore survives unless the later one writes it as well, and which keys one submission writes
depends on whether it has a baseline.
-/

namespace GiPricing.RatingVersions

open Failure Governance Transition

variable {w : Workspace} {row : RatingVersionRow} {summary : String} {e : Evidence}

/-! ## The keys of a mapping -/

theorem Evidence.update_isSome (a b : Evidence) (k : EvidenceKey) :
    ((a.update b) k).isSome ↔ (a k).isSome ∨ (b k).isSome := by
  rw [update, Option.isSome_or, Bool.or_eq_true, or_comm]

theorem Evidence.single_isSome {key k : EvidenceKey} {value : EvidenceValue} :
    (single key value k).isSome ↔ k = key := by
  unfold single
  split_ifs with h <;> simp [h]

theorem Evidence.update_eq_right {a b : Evidence} :
    a.update b = b ↔ ∀ k, (a k).isSome → (b k).isSome := by
  constructor
  · intro h k ha
    rw [← h, update_isSome]
    exact Or.inl ha
  · intro h
    funext k
    unfold update
    cases hb : b k with
    | some v => rfl
    | none =>
      have ha : (a k).isSome = false := by
        by_contra hne
        have := h k (by rwa [← Bool.not_eq_false])
        rw [hb] at this
        cases this
      simpa using ha

/-- The keys that a kind of evidence is recorded under. -/
def keysOf (first : Bool) : String → List EvidenceKey
  | "structural_diff" => [.structural_diff_blob]
  | "regression_run" => [.regression_suite_run_id]
  | "dislocation_run" => [if first then .no_baseline else .dislocation_run_id]
  | _ => []

def isFirst (w : Workspace) (row : RatingVersionRow) : Bool := (dislocationBaseline w row).1.isNone

theorem dislocationGate_eq_ok {baseline : Option Governance.ArtifactRef} {found : Option UUID}
    (h : dislocationGate w row baseline = .ok found) : found.isNone = baseline.isNone := by
  cases baseline with
  | none =>
    cases h
    rfl
  | some ref =>
    obtain ⟨latest, -, h⟩ := bind_eq_ok.mp h
    cases h
    rfl

theorem verifiers_keys {golden : EvidenceValue} {kind : String}
    (h : verifiers w row summary golden kind = some (.ok e)) (k : EvidenceKey) :
    (e k).isSome ↔ k ∈ keysOf (isFirst w row) kind := by
  unfold verifiers at h
  split at h
  · obtain ⟨blob, -, h⟩ := bind_eq_ok.mp (Option.some.inj h)
    cases h
    simp [Evidence.single_isSome, keysOf]
  · obtain ⟨run_id, -, h⟩ := bind_eq_ok.mp (Option.some.inj h)
    cases h
    simp [Evidence.single_isSome, keysOf]
  · obtain ⟨found, hfound, h⟩ := bind_eq_ok.mp (Option.some.inj h)
    have hfirst : found.isNone = isFirst w row := dislocationGate_eq_ok hfound
    cases found with
    | none =>
      cases h
      simp [Evidence.single_isSome, keysOf, ← hfirst]
    | some run_id =>
      cases h
      simp [Evidence.single_isSome, keysOf, ← hfirst]
  · obtain ⟨-, -, h⟩ := bind_eq_ok.mp (Option.some.inj h)
    cases h
    simp [Evidence.empty, keysOf]
  · cases h
    simp [Evidence.empty, keysOf]
  · cases h
  · cases h

theorem recordKinds_keys {golden : EvidenceValue} {kinds : List String} {recorded : Evidence}
    (h : recordKinds w row summary golden kinds recorded = .ok e) (k : EvidenceKey) :
    (e k).isSome ↔ (recorded k).isSome ∨ ∃ kind ∈ kinds, k ∈ keysOf (isFirst w row) kind := by
  induction kinds generalizing recorded with
  | nil =>
    cases h
    simp
  | cons kind kinds ih =>
    obtain ⟨verify, hverify, h⟩ := bind_eq_ok.mp h
    obtain ⟨new, rfl, h⟩ := bind_eq_ok.mp h
    rw [ih h, Evidence.update_isSome, verifiers_keys (require_eq_ok.mp hverify)]
    simp [or_assoc]

theorem keysOf_of_notMem_floor {first : Bool} {kind : String} (h : kind ∉ evidenceFloor) :
    keysOf first kind = [] := by
  unfold keysOf
  split
  · exact absurd (by decide) h
  · exact absurd (by decide) h
  · exact absurd (by decide) h
  · rfl

theorem mem_keysOf_effectiveEvidence {entry : Option RatingVersionEntry} {first : Bool}
    {k : EvidenceKey} : (∃ kind ∈ effectiveEvidence entry, k ∈ keysOf first kind) ↔
      ∃ kind ∈ evidenceFloor, k ∈ keysOf first kind := by
  constructor
  · rintro ⟨kind, hkind, hk⟩
    refine ⟨kind, ?_, hk⟩
    by_contra hno
    rw [keysOf_of_notMem_floor hno] at hk
    cases hk
  · rintro ⟨kind, hkind, hk⟩
    exact ⟨kind, List.mem_append_left _ hkind, hk⟩

theorem approximationGate_isSome {found : Option EvidenceValue}
    (h : approximationGate w row = .ok found) :
    found.isSome ↔ row.model_reference_mode = .approximation := by
  unfold approximationGate at h
  cases hmode : row.model_reference_mode with
  | exact =>
    rw [hmode] at h
    cases h
    simp
  | approximation =>
    rw [hmode] at h
    obtain ⟨statements, -, h⟩ := bind_eq_ok.mp h
    obtain ⟨latest, -, h⟩ := bind_eq_ok.mp h
    obtain ⟨observed, -, h⟩ := bind_eq_ok.mp h
    obtain ⟨-, -, h⟩ := bind_eq_ok.mp h
    cases h
    simp

/-- The keys a submission writes, by whether it has a baseline and by the version's mode. -/
def writtenKeys (first : Bool) (mode : ModelReferenceMode) : List EvidenceKey :=
  [.golden_quotes, .structural_diff_blob, .regression_suite_run_id,
    if first then .no_baseline else .dislocation_run_id] ++
  if mode = .approximation then [.approximation_check] else []

theorem verifiedEvidence_keys (h : verifiedEvidence w row summary = .ok e) (k : EvidenceKey) :
    (e k).isSome ↔ k ∈ writtenKeys (isFirst w row) row.model_reference_mode := by
  obtain ⟨-, -, h⟩ := bind_eq_ok.mp h
  obtain ⟨-, -, h⟩ := bind_eq_ok.mp h
  obtain ⟨golden, -, h⟩ := bind_eq_ok.mp h
  obtain ⟨recorded, hrecorded, h⟩ := bind_eq_ok.mp h
  obtain ⟨check, hcheck, h⟩ := bind_eq_ok.mp h
  cases h
  have happrox : ((check.elim Evidence.empty (Evidence.single .approximation_check)) k).isSome ↔
      row.model_reference_mode = .approximation ∧ k = .approximation_check := by
    rw [← approximationGate_isSome hcheck]
    cases check with
    | none => simp [Evidence.empty]
    | some v => simp [Evidence.single_isSome]
  rw [Evidence.update_isSome, Evidence.update_isSome, Evidence.single_isSome, happrox,
    recordKinds_keys hrecorded, mem_keysOf_effectiveEvidence]
  generalize isFirst w row = first
  generalize row.model_reference_mode = mode
  cases k <;> cases first <;> cases mode <;> decide

/-! ## The history of a version -/

structure Submission where
  workspace : Workspace
  row : RatingVersionRow
  summary : String

structure History where
  row : RatingVersionRow
  latest : Option Submission

/-- Between two events the workspace may change in any way, its policy included. -/
inductive Event
  | compile (compiled : Except Refusal String)
  | submit (workspace : Workspace) (summary : String)
  | decide (request_status : ApprovalStatus)

/-- The history after a request; a refused one changes nothing. -/
def History.next (h : History) : Event → History
  | .compile compiled =>
    match compileRatingVersion h.row compiled with
    | .ok row => { h with row := row }
    | .error _ => h
  | .submit w summary =>
    { row := unitOfWork h.row (submitForReview w h.row summary)
      latest := match (submitForReview w h.row summary).2 with
        | .ok _ => some { workspace := w, row := h.row, summary := summary }
        | .error _ => h.latest }
  | .decide request_status =>
    match applyApprovalDecision h.row request_status with
    | .ok row => { h with row := row }
    | .error _ => h

def History.step (h : History) (event : Event) : Option History := some (h.next event)

/-- A version as it is created. -/
def created (slug : String) (version : ℕ) (algorithm_ref : Option Governance.ArtifactRef)
    (mode : ModelReferenceMode) : History :=
  { row := { slug := slug, version := version, status := .draft, algorithm_ref := algorithm_ref
             model_reference_mode := mode, bundle := none, evidence := none
             change_summary := none, approval_request_id := none }
    latest := none }

/-- In review, the evidence is what the gates of the latest submission recorded, for the bundle
the version still has. -/
def OwnEvidence (h : History) : Prop := h.row.status = .review → ∃ s e, h.latest = some s ∧
  verifiedEvidence s.workspace s.row s.summary = .ok e ∧ h.row.evidence = some e ∧
  h.row.bundle = s.row.bundle ∧
  ¬ ((e .no_baseline).isSome ∧ (e .dislocation_run_id).isSome) ∧
  ((e .approximation_check).isSome → h.row.model_reference_mode = .approximation)

/-- A step to a version whose evidence is its own, and a refused submission leaves the row. -/
def EvidenceIsOwn (h : History) (event : Event) (h' : History) : Prop :=
  OwnEvidence h' ∧ ∀ w summary refusal, event = .submit w summary →
    (submitForReview w h.row summary).2 = .error refusal → h'.row = h.row

/-- A submission that is taken has a baseline just where the one before it had. -/
def KeepsBaseline (h : History) (event : Event) (_ : History) : Prop :=
  ∀ w summary request s, event = .submit w summary →
    (submitForReview w h.row summary).2 = .ok request → h.latest = some s →
      isFirst w h.row = isFirst s.workspace s.row

/-! ## One step -/

theorem submitForReview_eq_ok {request : UUID}
    (h : (submitForReview w row summary).2 = .ok request) :
    ∃ e, verifiedEvidence w row summary = .ok e ∧ (submitForReview w row summary).1 =
      { row with
        evidence := some ((row.evidence.getD .empty).update e)
        change_summary := some summary
        status := .review
        approval_request_id := some request } := by
  unfold submitForReview at h ⊢
  cases hv : verifiedEvidence w row summary with
  | error refusal =>
    rw [hv] at h
    cases h
  | ok e =>
    rw [hv] at h
    refine ⟨e, rfl, ?_⟩
    cases ho : openRequest w summary with
    | error refusal =>
      simp only [ho] at h
      cases h
    | ok id =>
      simp only [ho] at h
      cases h
      rfl

theorem compileRatingVersion_eq_ok {compiled : Except Refusal String} {row' : RatingVersionRow}
    (h : compileRatingVersion row compiled = .ok row') :
    row.status = .draft ∧ ∃ hash, row' = { row with bundle := some hash } := by
  obtain ⟨_, hd, h⟩ := bind_eq_ok.mp h
  obtain ⟨hash, -, h⟩ := bind_eq_ok.mp h
  cases h
  exact ⟨ensure_eq_ok.mp hd, hash, rfl⟩

theorem applyApprovalDecision_eq_ok {request_status : ApprovalStatus} {row' : RatingVersionRow}
    (h : applyApprovalDecision row request_status = .ok row') :
    row' = row ∨ row.status = .review ∧ ∃ target, target ≠ .review ∧
      row' = { row with status := target } := by
  unfold applyApprovalDecision at h
  cases ht : targetStatus request_status with
  | none =>
    rw [ht] at h
    cases h
    exact Or.inl rfl
  | some target =>
    simp only [ht] at h
    split_ifs at h with hd
    · cases h
      exact Or.inl rfl
    · obtain ⟨_, hr, h⟩ := bind_eq_ok.mp h
      cases h
      refine Or.inr ⟨ensure_eq_ok.mp hr, target, ?_, rfl⟩
      rintro rfl
      cases request_status <;> cases ht

/-- What every history keeps while its submissions agree: the stored evidence is that of the
latest one, and the bundle is its bundle until the version is a draft again. -/
structure Settled (h : History) : Prop where
  unsubmitted : h.latest = none → h.row.evidence = none ∧ h.row.status = .draft
  submitted : ∀ s, h.latest = some s → ∃ e,
    verifiedEvidence s.workspace s.row s.summary = .ok e ∧ h.row.evidence = some e ∧
    s.row.model_reference_mode = h.row.model_reference_mode
  bundle : ∀ s, h.latest = some s → h.row.status ≠ .draft → h.row.bundle = s.row.bundle

theorem settled_created (slug : String) (version : ℕ)
    (algorithm_ref : Option Governance.ArtifactRef) (mode : ModelReferenceMode) :
    Settled (created slug version algorithm_ref mode) where
  unsubmitted _ := ⟨rfl, rfl⟩
  submitted _ hs := by cases hs
  bundle _ hs := by cases hs

theorem Settled.own {h : History} (hs : Settled h) : OwnEvidence h := by
  intro hreview
  cases hl : h.latest with
  | none =>
    have := (hs.unsubmitted hl).2
    rw [hreview] at this
    cases this
  | some s =>
    obtain ⟨e, he, hev, hmode⟩ := hs.submitted s hl
    have hkeys := verifiedEvidence_keys he
    refine ⟨s, e, rfl, he, hev, hs.bundle s hl (by rw [hreview]; decide), ?_, ?_⟩
    · rw [hkeys, hkeys]
      cases isFirst s.workspace s.row <;> cases s.row.model_reference_mode <;> decide
    · rw [hkeys, ← hmode]
      cases isFirst s.workspace s.row <;> cases s.row.model_reference_mode <;> decide

theorem writtenKeys_subset {first first' : Bool} {mode : ModelReferenceMode} :
    (∀ k, k ∈ writtenKeys first mode → k ∈ writtenKeys first' mode) ↔ first' = first := by
  constructor
  · intro h
    have hn := h .no_baseline
    have hd := h .dislocation_run_id
    revert hn hd
    cases first <;> cases first' <;> cases mode <;> decide
  · rintro rfl k hk
    exact hk

theorem Settled.update_eq_iff {h : History} (hs : Settled h)
    (he : verifiedEvidence w h.row summary = .ok e) :
    (h.row.evidence.getD .empty).update e = e ↔
      ∀ s, h.latest = some s → isFirst w h.row = isFirst s.workspace s.row := by
  rw [Evidence.update_eq_right]
  cases hl : h.latest with
  | none =>
    rw [(hs.unsubmitted hl).1]
    simp [Evidence.empty]
  | some s =>
    obtain ⟨old, hold, hev, hmode⟩ := hs.submitted s hl
    rw [hev]
    simp only [Option.getD_some, verifiedEvidence_keys hold, verifiedEvidence_keys he, hmode,
      writtenKeys_subset, Option.some.injEq, forall_eq']

theorem Settled.next {h : History} {event : Event} (hs : Settled h)
    (hk : KeepsBaseline h event (h.next event)) : Settled (h.next event) := by
  cases event with
  | compile compiled =>
    cases hc : compileRatingVersion h.row compiled with
    | error refusal =>
      simp only [History.next, hc]
      exact hs
    | ok row' =>
      obtain ⟨hdraft, hash, rfl⟩ := compileRatingVersion_eq_ok hc
      simp only [History.next, hc]
      exact ⟨hs.unsubmitted, hs.submitted, fun s _ hne => absurd hdraft hne⟩
  | decide request_status =>
    cases hd : applyApprovalDecision h.row request_status with
    | error refusal =>
      simp only [History.next, hd]
      exact hs
    | ok row' =>
      simp only [History.next, hd]
      obtain rfl | ⟨hreview, target, -, rfl⟩ := applyApprovalDecision_eq_ok hd
      · exact hs
      · refine ⟨fun hl => ?_, hs.submitted, fun s hl _ => hs.bundle s hl (by rw [hreview]; decide)⟩
        have := (hs.unsubmitted hl).2
        rw [hreview] at this
        cases this
  | submit w summary =>
    cases hr : (submitForReview w h.row summary).2 with
    | error refusal =>
      have hnext : h.next (.submit w summary) = h := by
        simp only [History.next, unitOfWork, hr]
      rwa [hnext]
    | ok request =>
      obtain ⟨e, he, hrow⟩ := submitForReview_eq_ok hr
      have hupdate := (hs.update_eq_iff he).mpr fun s hl => hk w summary request s rfl hr hl
      rw [hupdate] at hrow
      simp only [History.next, unitOfWork, hr, hrow]
      refine ⟨fun hl => (by cases hl), ?_, ?_⟩
      · rintro s hl
        cases hl
        exact ⟨e, he, rfl, rfl⟩
      · rintro s hl -
        cases hl
        rfl

theorem Settled.keepsBaseline {h : History} {event : Event} (hs : Settled h)
    (ho : OwnEvidence (h.next event)) : KeepsBaseline h event (h.next event) := by
  rintro w summary request s rfl hr hl
  obtain ⟨e, he, hrow⟩ := submitForReview_eq_ok hr
  simp only [OwnEvidence, History.next, unitOfWork, hr, hrow] at ho
  obtain ⟨s', e', hs', he', hev, -⟩ := ho trivial
  cases hs'
  obtain rfl : e = e' := Except.ok.inj (he.symm.trans he')
  exact (hs.update_eq_iff he).mp (Option.some.inj hev) s hl

/-- The evidence is the submission's own along a run, just where no submission that is taken has a
baseline where the one before it had none, or none where that one had one. -/
theorem evidenceIsOwn_iff (slug : String) (version : ℕ)
    (algorithm_ref : Option Governance.ArtifactRef) (mode : ModelReferenceMode)
    (events : List Event) :
    Always History.step EvidenceIsOwn (created slug version algorithm_ref mode) events ↔
      Always History.step KeepsBaseline (created slug version algorithm_ref mode) events := by
  have hkeep : ∀ h event h', Settled h → History.step h event = some h' →
      EvidenceIsOwn h event h' → Settled h' := by
    intro h event h' hs hstep hP
    obtain rfl : h.next event = h' := Option.some.inj hstep
    exact hs.next (hs.keepsBaseline hP.1)
  have hagree : ∀ h event h', Settled h → History.step h event = some h' →
      (EvidenceIsOwn h event h' ↔ KeepsBaseline h event h') := by
    intro h event h' hs hstep
    obtain rfl : h.next event = h' := Option.some.inj hstep
    constructor
    · intro hP
      exact hs.keepsBaseline hP.1
    · intro hk
      refine ⟨(hs.next hk).own, ?_⟩
      rintro w summary refusal rfl hr
      simp only [History.next, unitOfWork, hr]
  exact always_congr hkeep hagree (settled_created slug version algorithm_ref mode) events

/-! ## A version submitted again -/

/-- A workspace whose gates all pass, with the version to compare with, where there is one. -/
def passing (approved : Option Governance.ArtifactRef) : Workspace where
  may_submit := true
  current_suite_for_algorithm := fun slug =>
    some { slug := slug, version := 1, content_hash := "suite", golden_quotes := ["base"] }
  load_compiled := fun _ => .ok "bundle"
  reproduces := fun _ _ => true
  regression_runs := [
    { id := 7, bundle_hash := "bundle", suite_content_hash := "suite", passed := true }]
  live_rating_version_ref := fun _ => none
  approved_version := fun _ => approved
  dislocation_runs := approved.toList.map fun baseline =>
    { id := 8
      candidate_ref := { type := "rating_version", slug := "motor", version := 2 }
      candidate_bundle_hash := "bundle"
      baseline_ref := baseline
      abs_change_pct_quantiles := none }
  saved_algorithm := fun _ => some "algorithm"
  algorithm_of := fun _ => .ok (some "algorithm")
  structural_diff := fun _ _ => "diff"
  approximation_fidelity_statements := .ok []
  entry := some
    { evidence := [], approximation_deviation := none, dislocation_baseline_environment := none }
  under_review := false
  request_id := 9

/-- Submitted with nothing to compare with, sent back, and submitted again once another version
of the algorithm is approved. -/
def resubmitted : List Event :=
  [.compile (.ok "bundle"), .submit (passing none) "first", .decide .changesRequested,
    .submit (passing (some { type := "rating_version", slug := "motor", version := 1 })) "second"]

def motor : History :=
  created "motor" 2 (some { type := "rating_algorithm", slug := "motor-gb", version := 1 }) .exact

theorem not_evidenceIsOwn_resubmitted :
    (run History.step motor resubmitted).map (fun h => (h.row.status,
      h.row.evidence.bind (· .no_baseline), h.row.evidence.bind (· .dislocation_run_id))) =
      some (.review, some (.reason "first_version"), some (.run 8)) ∧
    ¬ Always History.step EvidenceIsOwn motor resubmitted := by
  have hrun : (run History.step motor resubmitted).map (fun h => (h.row.status,
      h.row.evidence.bind (· .no_baseline), h.row.evidence.bind (· .dislocation_run_id))) =
      some (.review, some (.reason "first_version"), some (.run 8)) := by decide
  refine ⟨hrun, fun h => ?_⟩
  have hown := (h _ rfl).2 _ rfl |>.2 _ rfl |>.2 _ rfl |>.1.1
  obtain ⟨s, e, -, -, hev, -, hboth, -⟩ := hown (by decide)
  exact hboth (by
    have h₁ := congrArg (Option.map fun e : Evidence => (e .no_baseline).isSome) hev
    have h₂ := congrArg (Option.map fun e : Evidence => (e .dislocation_run_id).isSome) hev
    exact ⟨(Option.some.inj h₁).symm.trans (by decide),
      (Option.some.inj h₂).symm.trans (by decide)⟩)

end GiPricing.RatingVersions
