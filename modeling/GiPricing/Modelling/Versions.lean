import GiPricing.Modelling.Lifecycle
import Mathlib.Tactic

/-! # Versions of a model family

Every status change follows the table of transitions and a family has one approved version,
where no fit is recorded on an archived reservation and no approval comes after a later one.
-/

namespace GiPricing.Modelling

open Failure Governance Transition

/-! ## What a step does to one row -/

section Rows

variable {s : Models} {e : ModelEvent} {m m' : ModelRow}

/-- A decision that moves a version from review to approved. -/
def Approves (s : Models) (d : Decision) (m : ModelRow) : Prop :=
  ∃ g row, decide s.approvals d = .ok (g, row) ∧ row.status = .approved ∧
    row.artifact_type = "model" ∧ s.model? row.workspace_id row.artifact_ref = some m ∧
    m.status = .review ∧ s.flagsFor m = .ok []

/-- One row over one step. -/
inductive RowStep (s : Models) (e : ModelEvent) (m : ModelRow) : ModelRow → Prop
  | same : RowStep s e m m
  | fit (c : Models.Fit) (he : e = .recordFit c)
      (hrow : s.byId c.workspace_id c.model_id = some m) (hnone : m.fit_result = none) :
      RowStep s e m { m with
        fit_result := some c.fit_result, diagnostics_id := some c.diagnostics_id, status := .fitted }
  | review (request : UUID) (hstatus : m.status = .fitted) :
      RowStep s e m { m with status := .review, approval_request_id := some request }
  | archive (hvalid : .archived ∈ validModelTransitions m.status) :
      RowStep s e m { m with status := .archived }
  | approve (d : Decision) (he : e = .decide d) (happroves : Approves s d m) :
      RowStep s e m { m with status := .approved }
  | return (hstatus : m.status = .review) : RowStep s e m { m with status := .fitted }
  | supersede (hstatus : m.status = .approved) : RowStep s e m { m with status := .superseded }

theorem RowStep.keeps (h : RowStep s e m m') : m'.id = m.id ∧ m'.workspace_id = m.workspace_id ∧
    m'.model_family_slug = m.model_family_slug ∧ m'.version = m.version ∧ m'.spec = m.spec ∧
    m'.spec_hash = m.spec_hash ∧ m'.parent_model_id = m.parent_model_id := by
  cases h <;> exact ⟨rfl, rfl, rfl, rfl, rfl, rfl, rfl⟩

theorem Approves.review {d : Decision} (h : Approves s d m) : m.status = .review := by
  obtain ⟨-, -, -, -, -, -, hreview, -⟩ := h
  exact hreview

theorem Approves.flags {d : Decision} (h : Approves s d m) : s.flagsFor m = .ok [] := by
  obtain ⟨-, -, -, -, -, -, -, hflags⟩ := h
  exact hflags

theorem RowStep.fitted (h : RowStep s e m m')
    (hm : m.status ≠ .draft → m.status ≠ .archived → m.fit_result.isSome ∧ m.diagnostics_id.isSome) :
    m'.status ≠ .draft → m'.status ≠ .archived → m'.fit_result.isSome ∧ m'.diagnostics_id.isSome := by
  cases h with
  | same => exact hm
  | fit c he hrow hnone => exact fun _ _ => ⟨rfl, rfl⟩
  | review request hstatus => exact fun _ _ => hm (by simp [hstatus]) (by simp [hstatus])
  | archive hvalid => exact fun _ h => absurd rfl h
  | approve d he happroves =>
    exact fun _ _ => hm (by simp [happroves.review]) (by simp [happroves.review])
  | «return» hstatus => exact fun _ _ => hm (by simp [hstatus]) (by simp [hstatus])
  | supersede hstatus => exact fun _ _ => hm (by simp [hstatus]) (by simp [hstatus])

theorem RowStep.fit_isSome (h : RowStep s e m m') (hm : m.fit_result.isSome) :
    m'.fit_result.isSome := by
  cases h with
  | fit c he hrow hnone => rfl
  | _ => exact hm

theorem RowStep.draft (h : RowStep s e m m') (hm : m'.status = .draft) : m' = m := by
  cases h with
  | same => rfl
  | _ => cases hm

theorem RowStep.unset (h : RowStep s e m m') (hm : m.fit_result = none → m.diagnostics_id = none) :
    m'.fit_result = none → m'.diagnostics_id = none := by
  cases h with
  | fit c he hrow hnone => exact nofun
  | _ => exact hm

theorem RowStep.approved (h : RowStep s e m m') (hm : m'.status = .approved) :
    (m' = m ∧ m.status = .approved) ∨ ∃ d, e = .decide d ∧ Approves s d m := by
  cases h with
  | same => exact Or.inl ⟨rfl, hm⟩
  | approve d he happroves => exact Or.inr ⟨d, he, happroves⟩
  | _ => cases hm

theorem Approves.unique {d : Decision} {n : ModelRow} (hm : Approves s d m) (hn : Approves s d n) :
    m = n := by
  obtain ⟨g, row, hdec, -, -, hrow, -⟩ := hm
  obtain ⟨g', row', hdec', -, -, hrow', -⟩ := hn
  obtain ⟨-, rfl⟩ : g = g' ∧ row = row' := by
    rw [hdec] at hdec'
    exact Prod.mk.inj (Except.ok.inj hdec')
  exact Option.some.inj (hrow.symm.trans hrow')

theorem Models.byId_eq_some {workspace_id model_id : UUID}
    (h : s.byId workspace_id model_id = some m) : m ∈ s.models ∧ m.id = model_id := by
  have := List.find?_some h
  simp only [decide_eq_true_eq] at this
  exact ⟨List.mem_of_find?_eq_some h, this.1⟩

theorem Models.model?_eq_some {workspace_id : UUID} {ref : Governance.ArtifactRef}
    (h : s.model? workspace_id ref = some m) : m ∈ s.models ∧ m.workspace_id = workspace_id ∧
      m.model_family_slug = ref.slug ∧ m.version = ref.version := by
  have := List.find?_some h
  simp only [decide_eq_true_eq] at this
  exact ⟨List.mem_of_find?_eq_some h, this⟩

end Rows

/-! ## The invariant -/

/-- The versions of a family, in the order of their reservation, are `1..n`. -/
def Consecutive (s : Models) : Prop :=
  ∀ w slug, (s.family w slug).map (·.version) = List.range' 1 (s.family w slug).length

/-- The version a reference names. -/
def Names (workspace_id : UUID) (ref : Governance.ArtifactRef) (m : ModelRow) : Prop :=
  m.workspace_id = workspace_id ∧ m.model_family_slug = ref.slug ∧ m.version = ref.version

structure Inv (s : Models) : Prop where
  ids : (s.models.map (·.id)).Nodup
  hashes : ∀ m ∈ s.models, ∀ m' ∈ s.models,
    m.workspace_id = m'.workspace_id → m.spec_hash = m'.spec_hash → m = m'
  fitted : ∀ m ∈ s.models, m.status ≠ .draft → m.status ≠ .archived →
    m.fit_result.isSome ∧ m.diagnostics_id.isSome
  draft : ∀ m ∈ s.models, m.status = .draft → m.fit_result = none
  diagnostics : ∀ m ∈ s.models, m.fit_result = none → m.diagnostics_id = none
  versions : Consecutive s
  parents : ∀ m ∈ s.models, (m.version = 1 ∧ m.parent_model_id = none) ∨
    ∃ p ∈ s.models, p.SameFamily m ∧ p.version + 1 = m.version ∧ m.parent_model_id = some p.id
  requests : ∀ r ∈ s.approvals.requests, r.artifact_type = "model" →
    ∃ m ∈ s.models, Names r.workspace_id r.artifact_ref m ∧ m.fit_result.isSome

theorem Models.mem_family {s : Models} {w : UUID} {slug : String} {m : ModelRow} :
    m ∈ s.family w slug ↔ m ∈ s.models ∧ m.workspace_id = w ∧ m.model_family_slug = slug := by
  simp [Models.family]

theorem Inv.eq_of_version {s : Models} (h : Inv s) {m m' : ModelRow} (hm : m ∈ s.models)
    (hm' : m' ∈ s.models) (hf : m.SameFamily m') (hv : m.version = m'.version) : m = m' := by
  have hnodup : ((s.family m'.workspace_id m'.model_family_slug).map (·.version)).Nodup := by
    rw [h.versions]
    exact List.nodup_range'
  exact List.inj_on_of_nodup_map hnodup (Models.mem_family.mpr ⟨hm, hf⟩)
    (Models.mem_family.mpr ⟨hm', rfl, rfl⟩) hv

theorem Inv.requested {s : Models} (h : Inv s) {r : ApprovalRequestRow}
    (hr : r ∈ s.approvals.requests) (ht : r.artifact_type = "model") {m : ModelRow}
    (hm : s.model? r.workspace_id r.artifact_ref = some m) : m.fit_result.isSome := by
  obtain ⟨n, hn, ⟨hw, hs, hv⟩, hfit⟩ := h.requests r hr ht
  obtain ⟨hmem, hw', hs', hv'⟩ := Models.model?_eq_some hm
  rw [h.eq_of_version hmem hn ⟨hw'.trans hw.symm, hs'.trans hs.symm⟩ (hv'.trans hv.symm)]
  exact hfit

/-- The approved versions of a family that are no bounds. -/
def OneApproved (s : Models) : Prop :=
  ∀ m ∈ s.models, ∀ m' ∈ s.models, m.SameFamily m' → m.status = .approved → m'.status = .approved →
    ¬ m.IsBound → ¬ m'.IsBound → m = m'

/-- What a step does: every row takes a step of its own, and at most one row is new. -/
structure Steps (specHash : ModelSpec → String) (s : Models) (e : ModelEvent) (s' : Models)
    (move : ModelRow → ModelRow) (new : List ModelRow) : Prop where
  models : s'.models = s.models.map move ++ new
  rows : ∀ m ∈ s.models, RowStep s e m (move m)
  reserved : new = [] ∨ ∃ c slug, (∀ m ∈ s.models, m.id ≠ c.id) ∧
    (∀ m ∈ s.models, m.workspace_id = c.workspace_id → m.spec_hash ≠ specHash c.spec) ∧
    new = [Models.newVersion specHash s c slug]
  requests : ∀ r ∈ s'.approvals.requests, (∃ r₀ ∈ s.approvals.requests,
    r.workspace_id = r₀.workspace_id ∧ r.artifact_ref = r₀.artifact_ref) ∨
    (r.artifact_type = "model" → ∃ m ∈ s.models, Names r.workspace_id r.artifact_ref m ∧
      (m.status = .fitted ∨ m.status = .review))
  superseded : ∀ d m, e = .decide d → Approves s d m → (move m).status = .approved ∧
    (∀ u ∈ s.models, u.SameFamily m → u.version < m.version → (move u).status ≠ .approved) ∧
    ∀ u ∈ s.models, m.version < u.version → move u = u
  refit : ∀ c m, e = .recordFit c → s.byId c.workspace_id c.model_id = some m →
    m.fit_result = none → (move m).status = .fitted

/-- No decision approves a version by this event. -/
def Undecided (s : Models) (e : ModelEvent) : Prop := ∀ d m, e = .decide d → ¬ Approves s d m

section Step

variable {specHash : ModelSpec → String} {s s' : Models} {e : ModelEvent}

/-- The requests a step keeps or adds. -/
def RequestsFrom (s s' : Models) : Prop :=
  ∀ r ∈ s'.approvals.requests, (∃ r₀ ∈ s.approvals.requests,
    r.workspace_id = r₀.workspace_id ∧ r.artifact_ref = r₀.artifact_ref) ∨
    (r.artifact_type = "model" → ∃ m ∈ s.models, Names r.workspace_id r.artifact_ref m ∧
      (m.status = .fitted ∨ m.status = .review))

theorem requestsFrom_self (h : s'.approvals.requests = s.approvals.requests) : RequestsFrom s s' :=
  fun r hr => Or.inl ⟨r, h ▸ hr, rfl, rfl⟩

theorem steps_same (hm : s'.models = s.models) (hr : RequestsFrom s s') (hu : Undecided s e)
    (hfit : ∀ c m, e = .recordFit c → s.byId c.workspace_id c.model_id = some m →
      m.fit_result ≠ none) : Steps specHash s e s' id [] where
  models := by rw [hm, List.map_id, List.append_nil]
  rows m _ := .same
  reserved := Or.inl rfl
  requests := hr
  superseded d m he ha := absurd ha (hu d m he)
  refit c m he hc hnone := absurd hnone (hfit c m he hc)

theorem steps_put (hids : (s.models.map (·.id)).Nodup) {row new : ModelRow} (hrow : row ∈ s.models)
    (hstep : RowStep s e row new) (hm : s'.models = (s.put new).models) (hr : RequestsFrom s s')
    (hu : Undecided s e)
    (hfit : ∀ c m, e = .recordFit c → s.byId c.workspace_id c.model_id = some m →
      m.fit_result = none → m = row ∧ new.status = .fitted) :
    Steps specHash s e s' (fun m => if m.id = new.id then new else m) [] where
  models := by rw [hm, List.append_nil]; rfl
  rows m hmem := by
    split_ifs with h
    · rw [List.inj_on_of_nodup_map hids hmem hrow (h.trans hstep.keeps.1)]
      exact hstep
    · exact .same
  reserved := Or.inl rfl
  requests := hr
  superseded d m he ha := absurd ha (hu d m he)
  refit c m he hc hnone := by
    obtain ⟨rfl, hs⟩ := hfit c m he hc hnone
    rw [if_pos hstep.keeps.1.symm]
    exact hs

/-! ### Decisions -/

/-- The rows after a decision is carried to the row it is about. -/
inductive Carried (s : Models) (request : ApprovalRequestRow) (g : Store) : Models → Prop
  | none : Carried s request g { s with approvals := g }
  | moved (row : ModelRow) (target : ModelStatus)
      (hrow : s.model? request.workspace_id request.artifact_ref = some row)
      (ht : request.artifact_type = "model")
      (htarget : Models.targetStatus request.status = some target)
      (hvalid : target ∈ validModelTransitions row.status)
      (hflags : target = .approved → s.flagsFor row = .ok []) :
      Carried s request g { s with
        approvals := g, models := s.models.map (Models.moved row target) }

theorem carried_of_ok {request : ApprovalRequestRow} {g : Store}
    (h : Models.applyApprovalDecision { s with approvals := g } request = .ok s') :
    Carried s request g s' := by
  unfold Models.applyApprovalDecision at h
  split_ifs at h with ht
  · cases h
    exact .none
  · split at h
    · cases h
      exact .none
    · cases h
      exact .none
    · rename_i row target hrow htarget
      split_ifs at h with hstay ha
      · cases h
        exact .none
      · simp only [bind_eq_ok, ensure_eq_ok, pure_eq_ok, Models.requireTransition] at h
        obtain ⟨flags, hflags, -, rfl, -, hvalid, rfl⟩ := h
        exact .moved row target hrow (not_not.mp ht) htarget hvalid fun _ => hflags
      · simp only [bind_eq_ok, ensure_eq_ok, pure_eq_ok, Models.requireTransition] at h
        obtain ⟨-, hvalid, rfl⟩ := h
        exact .moved row target hrow (not_not.mp ht) htarget hvalid fun he => absurd he ha

theorem apply_approve {request : ApprovalRequestRow} {g : Store} {row : ModelRow}
    (hstatus : request.status = .approved) (ht : request.artifact_type = "model")
    (hrow : s.model? request.workspace_id request.artifact_ref = some row)
    (hreview : row.status = .review) (hflags : s.flagsFor row = .ok []) :
    Models.applyApprovalDecision { s with approvals := g } request =
      .ok { s with approvals := g, models := s.models.map (Models.moved row .approved) } := by
  have hrow' : Models.model? { s with approvals := g } request.workspace_id request.artifact_ref =
      some row := hrow
  have hflags' : Models.flagsFor { s with approvals := g } row = .ok [] := hflags
  simp only [Models.applyApprovalDecision, ht, hrow', hstatus, Models.targetStatus, hreview, hflags']
  rfl

theorem rowStep_moved (h : Inv s) {row : ModelRow} {target : ModelStatus} (hrow : row ∈ s.models)
    (hvalid : target ∈ validModelTransitions row.status)
    (htarget : target = .fitted ∨ target = .approved ∧ ∃ d, e = .decide d ∧ Approves s d row)
    (hfit : row.fit_result.isSome) (m : ModelRow) (hm : m ∈ s.models) :
    RowStep s e m (Models.moved row target m) := by
  have hreview : row.status = .review := by
    have hdraft : row.status ≠ .draft := fun he => by
      rw [h.draft row hrow he] at hfit
      cases hfit
    rcases htarget with rfl | ⟨rfl, -⟩ <;> revert hvalid hdraft <;>
      cases row.status <;> simp [validModelTransitions]
  unfold Models.moved
  split_ifs with hid hsup
  · obtain rfl := List.inj_on_of_nodup_map h.ids hm hrow hid
    rcases htarget with rfl | ⟨rfl, d, he, ha⟩
    · exact .return hreview
    · exact .approve d he ha
  · exact .supersede hsup.2.2.2
  · exact .same

theorem targetStatus_cases {status : ApprovalStatus} {target : ModelStatus}
    (h : Models.targetStatus status = some target) :
    target = .approved ∧ status = .approved ∨ target = .fitted := by
  cases status <;> simp [Models.targetStatus] at h <;> simp [← h]

theorem steps_returned (h : Inv s) {request q : ApprovalRequestRow} {g : Store}
    (hc : Carried s request g s') (hq : q ∈ s.approvals.requests)
    (hqw : request.workspace_id = q.workspace_id) (hqr : request.artifact_ref = q.artifact_ref)
    (hr : RequestsFrom s s') (hu : Undecided s e) (hrefit : ∀ c, e ≠ .recordFit c)
    (hno : request.artifact_type = "model" → request.status = .approved → ∀ row,
      s.model? request.workspace_id request.artifact_ref = some row → row.status = .review →
      s.flagsFor row ≠ .ok []) : ∃ move new, Steps specHash s e s' move new := by
  cases hc with
  | none => exact ⟨id, [], steps_same rfl hr hu fun c m he => absurd he (hrefit c)⟩
  | moved row target hrow ht htarget hvalid hflags =>
    have hfit : row.fit_result.isSome := by
      refine h.requested hq ?_ (by rw [← hqw, ← hqr]; exact hrow)
      rw [ApprovalRequestRow.artifact_type, ← hqr]
      exact ht
    have hreturn : target = .fitted := by
      rcases targetStatus_cases htarget with ⟨rfl, hstatus⟩ | hf
      · have hreview : row.status = .review := by
          revert hvalid
          cases row.status <;> simp [validModelTransitions]
        exact absurd (hflags rfl) (hno ht hstatus row hrow hreview)
      · exact hf
    subst hreturn
    have hmem := (Models.model?_eq_some hrow).1
    refine ⟨Models.moved row .fitted, [], ⟨by rw [List.append_nil],
      rowStep_moved h hmem hvalid (Or.inl rfl) hfit, Or.inl rfl, hr,
      fun d m he ha => absurd ha (hu d m he), fun c m he => absurd he (hrefit c)⟩⟩

/-- The step of an approval: the version is approved and the earlier approved ones superseded. -/
theorem steps_approved (h : Inv s) {d : Decision} {m : ModelRow} {g : Store}
    (hm : m ∈ s.models) (hfit : m.fit_result.isSome) (ha : Approves s d m)
    (hr : RequestsFrom s { s with
      approvals := g, models := s.models.map (Models.moved m .approved) }) :
    Steps specHash s (.decide d)
      { s with approvals := g, models := s.models.map (Models.moved m .approved) }
      (Models.moved m .approved) [] where
  models := by rw [List.append_nil]
  rows := rowStep_moved h hm (by rw [ha.review]; decide) (Or.inr ⟨rfl, d, rfl, ha⟩) hfit
  reserved := Or.inl rfl
  requests := hr
  superseded d' u he hap := by
    obtain rfl := ModelEvent.decide.inj he
    obtain rfl := hap.unique ha
    have hne : ∀ v ∈ s.models, v.version ≠ u.version → v.id ≠ u.id := fun v hv hver hid =>
      hver (by rw [List.inj_on_of_nodup_map h.ids hv hm hid])
    refine ⟨by rw [Models.moved, if_pos rfl], fun v hv hfam hlt hst => ?_, fun v hv hlt => ?_⟩
    · unfold Models.moved at hst
      rw [if_neg (hne v hv hlt.ne)] at hst
      split_ifs at hst with hsup
      exact hsup ⟨rfl, hfam, hlt, hst⟩
    · rw [Models.moved, if_neg (hne v hv hlt.ne'), if_neg fun hsup => hlt.not_gt hsup.2.2.1]
  refit c m he := nomatch he

theorem steps_decide (h : Inv s) {d : Decision} (hs : s.decideAndCarry d = .ok s') :
    ∃ move new, Steps specHash s (.decide d) s' move new := by
  obtain ⟨⟨g, request⟩, hdec, hc⟩ := bind_eq_ok.mp hs
  rw [mapError_eq_ok] at hdec
  obtain ⟨old, hold⟩ := decide_eq_ok hdec
  have href : request.workspace_id = old.workspace_id ∧ request.artifact_ref = old.artifact_ref := by
    rw [hold.new_eq]
    exact ⟨rfl, rfl⟩
  by_cases hap : ∃ m, Approves s d m
  · obtain ⟨m, ha⟩ := hap
    have hm := ha
    obtain ⟨g', request', hdec', hstatus, ht, hrow, hreview, hflags⟩ := hm
    obtain ⟨rfl, rfl⟩ : g = g' ∧ request = request' := by
      rw [hdec] at hdec'
      exact Prod.mk.inj (Except.ok.inj hdec')
    have hcarry := @apply_approve s request g m hstatus ht hrow hreview hflags
    obtain rfl := Except.ok.inj (hcarry.symm.trans hc)
    refine ⟨_, [], steps_approved h (Models.model?_eq_some hrow).1 ?_ ha ?_⟩
    · refine h.requested hold.mem ?_ (by rw [← href.1, ← href.2]; exact hrow)
      rw [ApprovalRequestRow.artifact_type, ← href.2]
      exact ht
    · exact fun r hr => Or.inl (hold.requests hr)
  · push Not at hap
    have hc' := carried_of_ok hc
    refine steps_returned h hc' hold.mem href.1 href.2 ?_ ?_ (fun _ he => by cases he) ?_
    · have hg : s'.approvals = g := by cases hc' <;> rfl
      exact fun r hr => Or.inl (hold.requests (hg ▸ hr))
    · intro d' m he
      obtain rfl := ModelEvent.decide.inj he
      exact hap m
    · exact fun ht hstatus row hrow hreview hflags =>
        hap row ⟨g, request, hdec, hstatus, ht, hrow, hreview, hflags⟩

theorem steps_withdraw (h : Inv s) {w : Withdrawal} {live : Bool}
    (hs : s.withdrawAndCarry w live = .ok s') :
    ∃ move new, Steps specHash s (.withdraw w live) s' move new := by
  obtain ⟨⟨g, request⟩, hw, hc⟩ := bind_eq_ok.mp hs
  rw [mapError_eq_ok] at hw
  obtain ⟨old, hold, -, -, -, hnew, hput⟩ := withdraw_eq_ok hw
  have hid : request.id = old.id := by rw [hnew]
  have hw' : request.workspace_id = old.workspace_id := by rw [hnew]
  have href : request.artifact_ref = old.artifact_ref := by rw [hnew]
  have hstatus : request.status = .withdrawn := by rw [hnew]
  have hc' := carried_of_ok hc
  have hg : s'.approvals = g := by cases hc' <;> rfl
  refine steps_returned h hc' hold hw' href (fun r hr => Or.inl ?_) (fun _ _ he => by cases he)
    (fun _ he => by cases he) fun _ hap => by rw [hstatus] at hap; cases hap
  rw [hg, hput] at hr
  rcases (mem_put hold hid).mp hr with rfl | ⟨hr, -⟩
  · exact ⟨old, hold, hw', href⟩
  · exact ⟨r, hr, rfl, rfl⟩

theorem steps_reserve {c : Models.Reserve} (hid : ∀ m ∈ s.models, m.id ≠ c.id) {t : Models}
    {row : ModelRow} {fit : Bool} (hs : Models.reserve specHash s c = .ok (t, row, fit)) :
    ∃ move new, Steps specHash s (.reserve c) t move new := by
  simp only [Models.reserve, bind_eq_ok, ensure_eq_ok] at hs
  obtain ⟨-, -, source, -, -, -, hs⟩ := hs
  split at hs
  · rw [pure_eq_ok] at hs
    obtain rfl := (Prod.mk.inj hs).1
    exact ⟨id, [], steps_same rfl (requestsFrom_self rfl) (fun _ _ he => by cases he)
      fun _ _ he => by cases he⟩
  · rename_i hnone
    simp only [bind_eq_ok, ensure_eq_ok, pure_eq_ok, Prod.mk.injEq] at hs
    obtain ⟨-, -, rfl, -, -⟩ := hs
    have hhash : ∀ m ∈ s.models, m.workspace_id = c.workspace_id →
        m.spec_hash ≠ specHash c.spec := fun m hm hw he => by
      simpa [hw, he] using List.find?_eq_none.mp hnone m hm
    exact ⟨id, _, by rw [List.map_id], fun m _ => .same,
      Or.inr ⟨c, _, hid, hhash, rfl⟩, requestsFrom_self rfl, fun _ _ he => (by cases he), fun _ _ he => (by cases he)⟩

theorem steps_recordFit (h : Inv s) {c : Models.Fit} (hs : s.recordFit c = .ok s') :
    ∃ move new, Steps specHash s (.recordFit c) s' move new := by
  simp only [Models.recordFit, bind_eq_ok, ensure_eq_ok, require_eq_ok, pure_eq_ok] at hs
  obtain ⟨row, hrow, -, hnone, rfl⟩ := hs
  refine ⟨_, [], steps_put h.ids (Models.byId_eq_some hrow).1
    (.fit c rfl hrow hnone) rfl (requestsFrom_self rfl)
    (fun _ _ he => by cases he) fun c' m he hm _ => ?_⟩
  obtain rfl := ModelEvent.recordFit.inj he
  exact ⟨Option.some.inj (hm.symm.trans hrow), rfl⟩

theorem steps_archive (h : Inv s) {c : Models.Archive} (hs : s.archive c = .ok s') :
    ∃ move new, Steps specHash s (.archive c) s' move new := by
  simp only [Models.archive, Models.requireTransition, bind_eq_ok, ensure_eq_ok, require_eq_ok,
    pure_eq_ok] at hs
  obtain ⟨-, -, row, hrow, -, hvalid, rfl⟩ := hs
  exact ⟨_, [], steps_put h.ids (Models.byId_eq_some hrow).1 (.archive hvalid) rfl
    (requestsFrom_self rfl) (fun _ _ he => by cases he) fun _ _ he => by cases he⟩

theorem steps_submitForReview (h : Inv s) {c : Models.Review} (hs : s.submitForReview c = .ok s') :
    ∃ move new, Steps specHash s (.submitForReview c) s' move new := by
  simp only [Models.submitForReview, Models.requireTransition, bind_eq_ok, ensure_eq_ok,
    require_eq_ok, mapError_eq_ok, pure_eq_ok] at hs
  obtain ⟨-, -, row, hrow, -, hvalid, -, -, ⟨g, request⟩, hsub, rfl⟩ := hs
  obtain ⟨hg, -, -, -, href, hw⟩ := submit_eq_ok hsub
  have hmem := (Models.byId_eq_some hrow).1
  have hws : row.workspace_id = c.workspace_id := by
    have := List.find?_some hrow
    simp only [decide_eq_true_eq] at this
    exact this.2
  have hfitted : row.status = .fitted := by
    revert hvalid
    cases row.status <;> simp [validModelTransitions]
  refine ⟨_, [], steps_put h.ids hmem (.review request.id hfitted) rfl (fun r hr => ?_)
    (fun _ _ he => by cases he) fun _ _ he => by cases he⟩
  have hr' : r ∈ g.requests := hr
  rw [hg] at hr'
  rcases List.mem_append.mp hr' with hr' | hr'
  · exact Or.inl ⟨r, hr', rfl, rfl⟩
  · obtain rfl := List.mem_singleton.mp hr'
    rw [hw, href]
    exact Or.inr fun _ => ⟨row, hmem, ⟨hws, rfl, rfl⟩, Or.inl hfitted⟩

theorem status_of_unfitted (h : Inv s) {m : ModelRow} (hm : m ∈ s.models)
    (hnone : m.fit_result = none) : m.status = .draft ∨ m.status = .archived := by
  by_contra hst
  push Not at hst
  have := (h.fitted m hm hst.1 hst.2).1
  rw [hnone] at this
  cases this

theorem steps_of_step (h : Inv s) (hs : s.step specHash e = some s') :
    ∃ move new, Steps specHash s e s' move new := by
  have hself : (∀ c m, e = .recordFit c → s.byId c.workspace_id c.model_id = some m →
      m.fit_result ≠ none) → Undecided s e → ∃ move new, Steps specHash s e s move new :=
    fun hfit hu => ⟨id, [], steps_same rfl (requestsFrom_self rfl) hu hfit⟩
  cases e with
  | decide d =>
    simp only [Models.step] at hs
    rcases hd : s.decideAndCarry d with r | t <;> rw [hd] at hs <;> cases hs
    · refine hself (fun _ _ he => by cases he) fun d' m he ha => ?_
      obtain rfl := ModelEvent.decide.inj he
      obtain ⟨g, request, hdec, hstatus, ht, hrow, hreview, hflags⟩ := ha
      have hcarry := @apply_approve s request g m hstatus ht hrow hreview hflags
      have hok : s.decideAndCarry d = .ok _ :=
        bind_eq_ok.mpr ⟨(g, request), by rw [hdec]; rfl, hcarry⟩
      rw [hd] at hok
      cases hok
    · exact steps_decide h hd
  | withdraw w live =>
    simp only [Models.step] at hs
    rcases hw : s.withdrawAndCarry w live with r | t <;> rw [hw] at hs <;> cases hs
    · exact hself (fun _ _ he => by cases he) (fun _ _ he => by cases he)
    · exact steps_withdraw h hw
  | submit c resolve =>
    simp only [Models.step] at hs
    rcases hsub : Governance.submit s.approvals c (s.resolveRef c resolve) with r | ⟨g, row⟩ <;>
      rw [hsub] at hs <;> cases hs
    · exact hself (fun _ _ he => by cases he) (fun _ _ he => by cases he)
    · obtain ⟨hg, -, -, -, href, hw⟩ := submit_eq_ok hsub
      refine ⟨id, [], steps_same rfl (fun r hr => ?_) (fun _ _ he => by cases he)
        fun _ _ he => by cases he⟩
      have hr' : r ∈ g.requests := hr
      rw [hg] at hr'
      rcases List.mem_append.mp hr' with hr' | hr'
      · exact Or.inl ⟨r, hr', rfl, rfl⟩
      · obtain rfl := List.mem_singleton.mp hr'
        refine Or.inr fun ht => ?_
        have hres := submit_resolved hsub
        rw [ApprovalRequestRow.artifact_type, href] at ht
        rw [Models.resolveRef, if_neg (not_not.mpr ht)] at hres
        simp only [bind_eq_ok, require_eq_ok, ensure_eq_ok] at hres
        obtain ⟨m, hm, hreview⟩ := hres
        obtain ⟨hmem, hnames⟩ := Models.model?_eq_some hm
        rw [hw, href]
        exact ⟨m, hmem, hnames, Or.inr hreview⟩
  | reserve c =>
    simp only [Models.step] at hs
    split_ifs at hs with hnew
    rcases hr : Models.reserve specHash s c with r | ⟨t, row, fit⟩ <;> rw [hr] at hs <;> cases hs
    · exact hself (fun _ _ he => by cases he) (fun _ _ he => by cases he)
    · exact steps_reserve hnew hr
  | recordFit c =>
    simp only [Models.step] at hs
    rcases hf : s.recordFit c with r | t <;> rw [hf] at hs <;> cases hs
    · refine hself (fun c' m he hm hnone => ?_) (fun _ _ he => by cases he)
      obtain rfl := ModelEvent.recordFit.inj he
      rw [Models.recordFit, hm, Failure.require] at hf
      simp [hnone, Failure.ensure, bind, Except.bind, pure, Except.pure] at hf
    · exact steps_recordFit h hf
  | submitForReview c =>
    simp only [Models.step] at hs
    rcases hf : s.submitForReview c with r | t <;> rw [hf] at hs <;> cases hs
    · exact hself (fun _ _ he => by cases he) (fun _ _ he => by cases he)
    · exact steps_submitForReview h hf
  | archive c =>
    simp only [Models.step] at hs
    rcases hf : s.archive c with r | t <;> rw [hf] at hs <;> cases hs
    · exact hself (fun _ _ he => by cases he) (fun _ _ he => by cases he)
    · exact steps_archive h hf
  | setPolicy workspace_id policy =>
    cases hs
    exact ⟨id, [], steps_same rfl (requestsFrom_self rfl) (fun _ _ he => by cases he)
      fun _ _ he => by cases he⟩
  | record event =>
    cases hs
    exact ⟨id, [], steps_same rfl (requestsFrom_self rfl) (fun _ _ he => by cases he)
      fun _ _ he => by cases he⟩
  | setDataset dataset status =>
    cases hs
    exact ⟨id, [], steps_same rfl (requestsFrom_self rfl) (fun _ _ he => by cases he)
      fun _ _ he => by cases he⟩
  | setObjective workspace_id ref status =>
    cases hs
    exact ⟨id, [], steps_same rfl (requestsFrom_self rfl) (fun _ _ he => by cases he)
      fun _ _ he => by cases he⟩

/-! ## The invariant over a step -/

variable {move : ModelRow → ModelRow} {new : List ModelRow}

theorem Steps.mem (hs : Steps specHash s e s' move new) {m' : ModelRow} :
    m' ∈ s'.models ↔ (∃ m ∈ s.models, move m = m') ∨ m' ∈ new := by
  rw [hs.models, List.mem_append, List.mem_map]

theorem Steps.sameFamily (hs : Steps specHash s e s' move new) {m n : ModelRow} (hm : m ∈ s.models)
    (hn : n ∈ s.models) : (move m).SameFamily (move n) ↔ m.SameFamily n := by
  obtain ⟨-, hw, hf, -⟩ := (hs.rows m hm).keeps
  obtain ⟨-, hw', hf', -⟩ := (hs.rows n hn).keeps
  rw [ModelRow.SameFamily, hw, hf, hw', hf']
  exact Iff.rfl

/-- A new row is an unfitted draft, and the only one. -/
theorem Steps.new_eq (hs : Steps specHash s e s' move new) {n : ModelRow} (hn : n ∈ new) :
    ∃ c slug, n = Models.newVersion specHash s c slug ∧ new = [n] ∧
      (∀ m ∈ s.models, m.id ≠ n.id) ∧
      ∀ m ∈ s.models, m.workspace_id = n.workspace_id → m.spec_hash ≠ n.spec_hash := by
  rcases hs.reserved with rfl | ⟨c, slug, hid, hhash, rfl⟩
  · cases hn
  · obtain rfl := List.mem_singleton.mp hn
    exact ⟨c, slug, rfl, rfl, hid, hhash⟩

theorem Steps.ids (hs : Steps specHash s e s' move new) (h : Inv s) :
    (s'.models.map (·.id)).Nodup := by
  have hmap : (s.models.map move).map (·.id) = s.models.map (·.id) := by
    rw [List.map_map]
    exact List.map_congr_left fun m hm => (hs.rows m hm).keeps.1
  rw [hs.models, List.map_append, hmap, List.nodup_append]
  rcases hs.reserved with rfl | ⟨c, slug, hid, -, rfl⟩
  · exact ⟨h.ids, List.nodup_nil, by simp⟩
  · refine ⟨h.ids, List.nodup_singleton _, fun a ha b hb => ?_⟩
    obtain ⟨m, hm, rfl⟩ := List.mem_map.mp ha
    obtain rfl := List.mem_singleton.mp hb
    exact hid m hm

theorem Steps.hashes (hs : Steps specHash s e s' move new) (h : Inv s) :
    ∀ m ∈ s'.models, ∀ m' ∈ s'.models,
      m.workspace_id = m'.workspace_id → m.spec_hash = m'.spec_hash → m = m' := by
  intro m hm' n hn' hw hh
  rcases hs.mem.mp hm' with ⟨m, hm, rfl⟩ | hm <;> rcases hs.mem.mp hn' with ⟨n, hn, rfl⟩ | hn
  · obtain ⟨-, hmw, -, -, -, hmh, -⟩ := (hs.rows m hm).keeps
    obtain ⟨-, hnw, -, -, -, hnh, -⟩ := (hs.rows n hn).keeps
    rw [h.hashes m hm n hn (by rw [← hmw, hw, hnw]) (by rw [← hmh, hh, hnh])]
  · obtain ⟨-, hmw, -, -, -, hmh, -⟩ := (hs.rows m hm).keeps
    obtain ⟨-, -, -, -, -, hhash⟩ := hs.new_eq hn
    exact absurd (hmh.symm.trans hh) (hhash m hm (hmw.symm.trans hw))
  · obtain ⟨-, hnw, -, -, -, hnh, -⟩ := (hs.rows n hn).keeps
    obtain ⟨-, -, -, -, -, hhash⟩ := hs.new_eq hm
    exact absurd (hnh.symm.trans hh.symm) (hhash n hn (hnw.symm.trans hw.symm))
  · obtain ⟨-, -, -, hnew, -⟩ := hs.new_eq hm
    rw [hnew] at hn
    exact (List.mem_singleton.mp hn).symm

theorem Inv.last_version (h : Inv s) (w : UUID) (slug : String) :
    ((s.family w slug).map (·.version)).foldl max 0 = (s.family w slug).length := by
  have hrange : ∀ n, (List.range' 1 n).foldl max 0 = n := fun n => by
    induction n with
    | zero => rfl
    | succ n ih => rw [List.range'_concat, List.foldl_append, ih]; simp [Nat.add_comm]
  rw [h.versions w slug, hrange]

theorem Steps.versions (hs : Steps specHash s e s' move new) (h : Inv s) : Consecutive s' := by
  intro w slug
  have hfam : (s.models.map move).filter (fun m => m.workspace_id = w ∧ m.model_family_slug = slug) =
      (s.family w slug).map move := by
    rw [List.filter_map, Models.family]
    congr 1
    refine List.filter_congr fun m hm => ?_
    obtain ⟨-, hw, hf, -⟩ := (hs.rows m hm).keeps
    simp only [Function.comp_apply, hw, hf]
  have hver : ((s.family w slug).map move).map (·.version) =
      List.range' 1 (s.family w slug).length := by
    rw [← h.versions w slug, List.map_map]
    exact List.map_congr_left fun m hm => (hs.rows m (Models.mem_family.mp hm).1).keeps.2.2.2.1
  rw [Models.family, hs.models, List.filter_append, hfam, List.map_append, hver]
  rcases hs.reserved with rfl | ⟨c, slug', -, -, rfl⟩
  · simp
  · by_cases hmine : c.workspace_id = w ∧ slug' = slug
    · obtain ⟨rfl, rfl⟩ := hmine
      have hlast := h.last_version c.workspace_id slug'
      have hnew : ([Models.newVersion specHash s c slug'].filter fun m =>
          m.workspace_id = c.workspace_id ∧ m.model_family_slug = slug').map (·.version) =
            [1 + (s.family c.workspace_id slug').length] := by
        simp [Models.newVersion, hlast]
      have hone := congrArg List.length hnew
      rw [List.length_map, List.length_singleton] at hone
      rw [hnew, List.length_append, List.length_map, hone, List.range'_concat, Nat.one_mul]
    · simp [Models.newVersion, hmine]

theorem Steps.parents (hs : Steps specHash s e s' move new) (h : Inv s) :
    ∀ m ∈ s'.models, (m.version = 1 ∧ m.parent_model_id = none) ∨
      ∃ p ∈ s'.models, p.SameFamily m ∧ p.version + 1 = m.version ∧
        m.parent_model_id = some p.id := by
  have hmoved : ∀ p ∈ s.models, move p ∈ s'.models := fun p hp => hs.mem.mpr (Or.inl ⟨p, hp, rfl⟩)
  intro m hm'
  rcases hs.mem.mp hm' with ⟨m, hm, rfl⟩ | hm
  · obtain ⟨-, -, -, hv, -, -, hp⟩ := (hs.rows m hm).keeps
    rw [hv, hp]
    refine (h.parents m hm).imp id ?_
    rintro ⟨p, hpm, hfam, hver, hpar⟩
    obtain ⟨hid, -, -, hpv, -⟩ := (hs.rows p hpm).keeps
    exact ⟨move p, hmoved p hpm, (hs.sameFamily hpm hm).mpr hfam, by rw [hpv, hver],
      by rw [hid, hpar]⟩
  · obtain ⟨c, slug, rfl, -⟩ := hs.new_eq hm
    have hlast := h.last_version c.workspace_id slug
    rcases Nat.eq_zero_or_pos (s.family c.workspace_id slug).length with hzero | hpos
    · rw [List.length_eq_zero_iff] at hzero
      exact Or.inl (by simp [Models.newVersion, hzero])
    · have hlatest : (s.family c.workspace_id slug).length ∈
          (s.family c.workspace_id slug).map (·.version) := by
        rw [h.versions, List.mem_range'_1]
        omega
      obtain ⟨q, hq, hqv⟩ := List.mem_map.mp hlatest
      have hfound : ((s.family c.workspace_id slug).find? fun m => m.version =
          (s.family c.workspace_id slug).length).isSome :=
        List.find?_isSome.mpr ⟨q, hq, by simpa using hqv⟩
      obtain ⟨p, hp⟩ := Option.isSome_iff_exists.mp hfound
      obtain ⟨hpm, hpf⟩ := Models.mem_family.mp (List.mem_of_find?_eq_some hp)
      have hpv : p.version = (s.family c.workspace_id slug).length := by
        simpa using List.find?_some hp
      obtain ⟨hid, hw, hf, hv, -⟩ := (hs.rows p hpm).keeps
      refine Or.inr ⟨move p, hmoved p hpm, ⟨hw.trans hpf.1, hf.trans hpf.2⟩, ?_, ?_⟩
      · rw [hv, hpv, Models.newVersion, hlast, Nat.add_comm]
      · simp only [Models.newVersion, hlast, Nat.add_sub_cancel_left, hp, hid, Option.map_some]

theorem Steps.inv (hs : Steps specHash s e s' move new) (h : Inv s) : Inv s' where
  ids := hs.ids h
  hashes := hs.hashes h
  fitted m hm' := by
    rcases hs.mem.mp hm' with ⟨m, hm, rfl⟩ | hm
    · exact (hs.rows m hm).fitted (h.fitted m hm)
    · obtain ⟨c, slug, rfl, -⟩ := hs.new_eq hm
      exact fun hdraft => absurd rfl hdraft
  draft m hm' hdraft := by
    rcases hs.mem.mp hm' with ⟨m, hm, rfl⟩ | hm
    · have hsame := (hs.rows m hm).draft hdraft
      rw [hsame] at hdraft ⊢
      exact h.draft m hm hdraft
    · obtain ⟨c, slug, rfl, -⟩ := hs.new_eq hm
      rfl
  diagnostics m hm' := by
    rcases hs.mem.mp hm' with ⟨m, hm, rfl⟩ | hm
    · exact (hs.rows m hm).unset (h.diagnostics m hm)
    · obtain ⟨c, slug, rfl, -⟩ := hs.new_eq hm
      exact fun _ => rfl
  versions := hs.versions h
  parents := hs.parents h
  requests r hr ht := by
    have hnames : ∀ m ∈ s.models, Names r.workspace_id r.artifact_ref m → m.fit_result.isSome →
        ∃ m ∈ s'.models, Names r.workspace_id r.artifact_ref m ∧ m.fit_result.isSome :=
      fun m hm hn hfit => by
        obtain ⟨-, hw, hf, hv, -⟩ := (hs.rows m hm).keeps
        exact ⟨move m, hs.mem.mpr (Or.inl ⟨m, hm, rfl⟩),
          ⟨hw.trans hn.1, hf.trans hn.2.1, hv.trans hn.2.2⟩, (hs.rows m hm).fit_isSome hfit⟩
    rcases hs.requests r hr with ⟨r₀, hr₀, hw, href⟩ | hnew
    · rw [ApprovalRequestRow.artifact_type, href] at ht
      obtain ⟨m, hm, hn, hfit⟩ := h.requests r₀ hr₀ ht
      rw [← hw, ← href] at hn
      exact hnames m hm hn hfit
    · obtain ⟨m, hm, hn, hst⟩ := hnew ht
      refine hnames m hm hn (h.fitted m hm ?_ ?_).1 <;> rcases hst with hst | hst <;> simp [hst]

end Step

/-! ## What a run keeps -/

/-- What a step keeps of one Model. -/
structure Keeps (s : Models) (m m' : ModelRow) : Prop where
  identity : m'.id = m.id ∧ m'.workspace_id = m.workspace_id ∧
    m'.model_family_slug = m.model_family_slug ∧ m'.version = m.version ∧ m'.spec = m.spec ∧
    m'.spec_hash = m.spec_hash ∧ m'.parent_model_id = m.parent_model_id
  status : m'.status = m.status ∨ m'.status ∈ validModelTransitions m.status
  archived : m.status = .archived → m' = m
  fit_result : m.fit_result.isSome → m'.fit_result = m.fit_result
  diagnostics : m.diagnostics_id.isSome → m'.diagnostics_id = m.diagnostics_id
  approved : m'.status = .approved → m.status ≠ .approved → m.status = .review ∧
    s.datasets m.dataset_version_id = some "validated" ∧
    ∀ ref, m.spec.objective_ref = some ref → s.objectives m.workspace_id ref = some "approved"

/-- Every Model lives on. -/
def Follows (s s' : Models) : Prop := ∀ m ∈ s.models, ∃ m' ∈ s'.models, Keeps s m m'

/-- What holds of the Models between two steps. -/
structure Sound (s : Models) : Prop where
  ids : (s.models.map (·.id)).Nodup
  fitted : ∀ m ∈ s.models, m.status ≠ .draft → m.status ≠ .archived →
    m.fit_result.isSome ∧ m.diagnostics_id.isSome
  hashes : ∀ m ∈ s.models, ∀ m' ∈ s.models,
    m.workspace_id = m'.workspace_id → m.spec_hash = m'.spec_hash → m = m'
  versions : Consecutive s
  parents : ∀ m ∈ s.models, (m.version = 1 ∧ m.parent_model_id = none) ∨
    ∃ p ∈ s.models, p.SameFamily m ∧ p.version + 1 = m.version ∧ m.parent_model_id = some p.id
  one : OneApproved s

/-- No fit is recorded on an archived Model, and no Model but a bound is approved after a later
version of its family. -/
def InOrder (s : Models) : ModelEvent → Prop
  | .recordFit c => ∀ m, s.byId c.workspace_id c.model_id = some m → m.fit_result = none →
      m.status ≠ .archived
  | .decide d => ∀ m, Approves s d m → ¬ m.IsBound → ∀ u ∈ s.models, u.SameFamily m →
      m.version < u.version → u.status = .approved → u.IsBound
  | _ => True

section Runs

variable {specHash : ModelSpec → String} {s s' : Models} {e : ModelEvent} {m m' : ModelRow}
  {move : ModelRow → ModelRow} {new : List ModelRow}

theorem flagsFor_eq_nil (h : s.flagsFor m = .ok []) :
    s.datasets m.dataset_version_id = some "validated" ∧
      ∀ ref, m.spec.objective_ref = some ref → s.objectives m.workspace_id ref = some "approved" := by
  have hclear : ∀ {p : Prop} [Decidable p] {f : ModelFlag},
      (if p then [] else [f]) = ([] : List ModelFlag) → p := fun {p} _ f hnil =>
    by_contra fun hp => by simp [hp] at hnil
  cases href : m.spec.objective_ref with
  | none =>
    simp only [Models.flagsFor, href, pure_eq_ok] at h
    exact ⟨hclear h, nofun⟩
  | some ref =>
    simp only [Models.flagsFor, href, bind_eq_ok, require_eq_ok, pure_eq_ok] at h
    obtain ⟨status, hstatus, h⟩ := h
    obtain ⟨hd, ho⟩ := List.append_eq_nil_iff.mp h
    refine ⟨hclear hd, fun r hr => ?_⟩
    rw [← Option.some.inj hr, hstatus, hclear ho]

/-- One row over a step in order. -/
theorem RowStep.follows (h : RowStep s e m m') (hi : Inv s) (hm : m ∈ s.models)
    (hin : InOrder s e) : Keeps s m m' where
  identity := h.keeps
  status := by
    cases h with
    | same => exact Or.inl rfl
    | fit c he hrow hnone =>
      subst he
      rcases status_of_unfitted hi hm hnone with hst | hst
      · right
        simp [hst, validModelTransitions]
      · exact absurd hst (hin m hrow hnone)
    | review request hstatus => right; simp [hstatus, validModelTransitions]
    | archive hvalid => exact Or.inr hvalid
    | approve d he happroves => right; simp [happroves.review, validModelTransitions]
    | «return» hstatus => right; simp [hstatus, validModelTransitions]
    | supersede hstatus => right; simp [hstatus, validModelTransitions]
  archived ha := by
    cases h with
    | same => rfl
    | fit c he hrow hnone =>
      subst he
      exact absurd ha (hin m hrow hnone)
    | review request hstatus => rw [hstatus] at ha; cases ha
    | archive hvalid => rw [ha] at hvalid; cases hvalid
    | approve d he happroves => rw [happroves.review] at ha; cases ha
    | «return» hstatus => rw [hstatus] at ha; cases ha
    | supersede hstatus => rw [hstatus] at ha; cases ha
  fit_result hfit := by
    cases h with
    | fit c he hrow hnone => rw [hnone] at hfit; cases hfit
    | _ => rfl
  diagnostics hd := by
    cases h with
    | fit c he hrow hnone => rw [hi.diagnostics m hm hnone] at hd; cases hd
    | _ => rfl
  approved hst hne := by
    rcases h.approved hst with ⟨-, ha⟩ | ⟨d, -, ha⟩
    · exact absurd ha hne
    · exact ⟨ha.review, flagsFor_eq_nil ha.flags⟩

/-- One version of a family stays approved over a step in order. -/
theorem Steps.oneApproved (hs : Steps specHash s e s' move new) (hi : Inv s) (hone : OneApproved s)
    (hin : InOrder s e) : OneApproved s' := by
  -- An approval supersedes what is earlier, and the order leaves nothing that is later.
  have hlate : ∀ m ∈ s.models, ∀ u ∈ s.models, ∀ d, e = .decide d → Approves s d m →
      m.SameFamily u → (move u).status = .approved → u.status = .approved → ¬ m.IsBound →
      ¬ u.IsBound → False := by
    rintro m hm u hu d rfl ha hfam hmoved hst hb hb'
    have hfam' : u.SameFamily m := ⟨hfam.1.symm, hfam.2.symm⟩
    rcases lt_trichotomy u.version m.version with hlt | heq | hlt
    · exact (hs.superseded d m rfl ha).2.1 u hu hfam' hlt hmoved
    · rw [hi.eq_of_version hu hm hfam' heq, ha.review] at hst
      cases hst
    · exact hb' (hin m ha hb u hu hfam' hlt hst)
  intro m' hm' u' hu' hfam hst hst' hb hb'
  have hold : ∀ n' ∈ s'.models, n'.status = .approved → ∃ n ∈ s.models, move n = n' := by
    intro n' hn' hst
    refine (hs.mem.mp hn').resolve_right fun hnew => ?_
    obtain ⟨c, slug, rfl, -⟩ := hs.new_eq hnew
    cases hst
  obtain ⟨m, hm, rfl⟩ := hold m' hm' hst
  obtain ⟨u, hu, rfl⟩ := hold u' hu' hst'
  rw [hs.sameFamily hm hu] at hfam
  have hspec := (hs.rows m hm).keeps.2.2.2.2.1
  have hspec' := (hs.rows u hu).keeps.2.2.2.2.1
  rw [ModelRow.IsBound, hspec] at hb
  rw [ModelRow.IsBound, hspec'] at hb'
  rcases (hs.rows m hm).approved hst with ⟨-, ha⟩ | ⟨d, he, ha⟩ <;>
    rcases (hs.rows u hu).approved hst' with ⟨-, hu'⟩ | ⟨d', he', hu'⟩
  · rw [hone m hm u hu hfam ha hu' hb hb']
  · exact absurd (hlate u hu m hm d' he' hu' ⟨hfam.1.symm, hfam.2.symm⟩ hst ha hb' hb) id
  · exact absurd (hlate m hm u hu d he ha hfam hst' hu' hb hb') id
  · obtain rfl := ModelEvent.decide.inj (he.symm.trans he')
    rw [ha.unique hu']

theorem Steps.inOrder (hs : Steps specHash s e s' move new) (hf : Follows s s')
    (hone : OneApproved s') (hids : (s'.models.map (·.id)).Nodup) : InOrder s e := by
  have hmoved : ∀ m ∈ s.models, move m ∈ s'.models := fun m hm => hs.mem.mpr (Or.inl ⟨m, hm, rfl⟩)
  cases e with
  | recordFit c =>
    intro m hrow hnone ha
    have hm := (Models.byId_eq_some hrow).1
    obtain ⟨m', hm', hkeep⟩ := hf m hm
    have hst := hs.refit c m rfl hrow hnone
    rw [List.inj_on_of_nodup_map hids (hmoved m hm) hm'
      ((hs.rows m hm).keeps.1.trans hkeep.identity.1.symm), hkeep.archived ha, ha] at hst
    cases hst
  | decide d =>
    intro m ha hb u hu hfam hlt hst
    by_contra hb'
    have hm : m ∈ s.models := by
      obtain ⟨_, _, -, -, -, hrow, -⟩ := ha
      exact (Models.model?_eq_some hrow).1
    obtain ⟨hap, -, hlater⟩ := hs.superseded d m rfl ha
    have hsame := hlater u hu hlt
    have hspec := (hs.rows m hm).keeps.2.2.2.2.1
    have heq := hone (move u) (hmoved u hu) (move m) (hmoved m hm) ((hs.sameFamily hu hm).mpr hfam)
      (by rw [hsame, hst]) hap (by rwa [hsame]) (by rwa [ModelRow.IsBound, hspec])
    have hver := congrArg ModelRow.version heq
    rw [hsame, (hs.rows m hm).keeps.2.2.2.1] at hver
    omega
  | _ => trivial

theorem sound_of_inv (hi : Inv s) (hone : OneApproved s) : Sound s :=
  ⟨hi.ids, hi.fitted, hi.hashes, hi.versions, hi.parents, hone⟩

theorem init_inv (policies : UUID → ApprovalPolicy) : Inv (Models.init policies) where
  ids := List.nodup_nil
  hashes _ hm := nomatch hm
  fitted _ hm := nomatch hm
  draft _ hm := nomatch hm
  diagnostics _ hm := nomatch hm
  versions _ _ := rfl
  parents _ hm := nomatch hm
  requests _ hr := nomatch hr

/-- The lifecycle holds at every step of a run exactly where the run is in order. -/
theorem lifecycle_iff (specHash : ModelSpec → String) (policies : UUID → ApprovalPolicy)
    (events : List ModelEvent) :
    Always (Models.step specHash) (fun s _ s' => Follows s s' ∧ Sound s') (Models.init policies)
        events ↔
      Always (Models.step specHash) (fun s e _ => InOrder s e) (Models.init policies) events := by
  have hkeep : ∀ s e s', (Inv s ∧ OneApproved s) → s.step specHash e = some s' → InOrder s e →
      Follows s s' ∧ Inv s' ∧ OneApproved s' := by
    rintro s e s' ⟨hi, hone⟩ hs hin
    obtain ⟨move, new, hsteps⟩ := steps_of_step hi hs
    refine ⟨fun m hm => ⟨move m, hsteps.mem.mpr (Or.inl ⟨m, hm, rfl⟩),
      (hsteps.rows m hm).follows hi hm hin⟩, hsteps.inv hi, hsteps.oneApproved hi hone hin⟩
  have hinit : Inv (Models.init policies) ∧ OneApproved (Models.init policies) :=
    ⟨init_inv policies, fun _ hm => nomatch hm⟩
  have hiff : ∀ s e s', (Inv s ∧ OneApproved s) → s.step specHash e = some s' →
      ((Follows s s' ∧ Sound s') ↔ InOrder s e) := by
    intro s e s' hi hs
    refine ⟨fun h => ?_, fun hin => ?_⟩
    · obtain ⟨move, new, hsteps⟩ := steps_of_step hi.1 hs
      exact hsteps.inOrder h.1 h.2.one h.2.ids
    · obtain ⟨hf, hi', hone⟩ := hkeep s e s' hi hs hin
      exact ⟨hf, sound_of_inv hi' hone⟩
  exact always_congr (fun s e s' hi hs h => (hkeep s e s' hi hs ((hiff s e s' hi hs).mp h)).2)
    hiff hinit events

def archivedThenFitted : List ModelEvent :=
  [.reserve ⟨1, 1, true, ⟨"frequency", 1, "glm", "", ∅, none, none, none, ""⟩, .ok ⟨⟩⟩,
    .archive ⟨1, 1, true⟩]

theorem archived_comes_back :
    ¬ ∀ specHash policies events, Always (Models.step specHash)
      (fun s _ s' => Follows s s' ∧ Sound s') (Models.init policies) events := by
  intro h
  let fit : ModelEvent := .recordFit ⟨1, 1, "fit", 7⟩
  have hstatus : (run (Models.step ModelSpec.rest) (.init fun _ => ⟨[]⟩) archivedThenFitted).bind
      (fun s => (s.step ModelSpec.rest fit).map fun s' =>
        (s.models.map (·.status), s'.models.map (·.status))) =
      some ([.archived], [.fitted]) := by decide
  obtain ⟨s, hs, hstep⟩ := Option.bind_eq_some_iff.mp hstatus
  obtain ⟨s', hs', hst⟩ := Option.map_eq_some_iff.mp hstep
  obtain ⟨hbefore, hafter⟩ := Prod.mk.inj hst
  obtain ⟨hfollows, -⟩ :=
    (h ModelSpec.rest (fun _ => ⟨[]⟩) (archivedThenFitted ++ [fit])).last hs hs'
  obtain ⟨m, hm, hma⟩ : ∃ m ∈ s.models, m.status = .archived :=
    List.mem_map.mp (by rw [hbefore]; exact List.mem_singleton_self _)
  obtain ⟨m', hm', hkeep⟩ := hfollows m hm
  have hmem : m'.status ∈ s'.models.map (·.status) := List.mem_map_of_mem hm'
  rw [hafter, hkeep.archived hma, hma] at hmem
  simp at hmem

end Runs

end GiPricing.Modelling
