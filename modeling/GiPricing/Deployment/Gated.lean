import GiPricing.Deployment.Gate
import Mathlib.Logic.Relation

/-! # Gated deployment

A request is executed by one Deployment, of its Environment and its version. A Deployment follows
one of the same version in the Environment before it, or a recorded skip of that Environment.
-/

namespace GiPricing.Deployment

open Failure Governance Transition

/-! ## The calls -/

section Calls

variable {s s' : Registry} {c : Registry.DeployCall}

theorem Registry.mem_of_lastOf {rows : List DeploymentRow} {d : DeploymentRow}
    (h : Registry.lastOf rows = some d) : d ∈ rows :=
  List.mem_of_find?_eq_some h

theorem Registry.mem_deployed {workspace_id : UUID} {environment ref : String} {d : DeploymentRow} :
    d ∈ s.deployed workspace_id environment ref ↔ d ∈ s.deployments ∧
      d.workspace_id = workspace_id ∧ d.environment = environment ∧ d.rating_version_ref = ref := by
  simp [Registry.deployed]

theorem Registry.authorisedEnvironment_eq_ok {actor : Principal} {slug : String}
    {env : EnvironmentRow} (h : s.authorisedEnvironment actor slug = .ok env) :
    s.environment? slug = some env ∧ env.slug = slug := by
  simp only [authorisedEnvironment, bind_eq_ok, require_eq_ok, ensure_eq_ok, pure_eq_ok] at h
  obtain ⟨e, he, -, -, -, -, rfl⟩ := h
  have := List.find?_some he
  exact ⟨he, by simpa using this⟩

theorem Registry.prior_eq {slug : String} {env : EnvironmentRow}
    (h : s.environment? slug = some env) : s.prior slug = env.requires_prior_environment := by
  rw [prior, h, Option.bind_some]

theorem promotionOrder_eq_none {entry : Option ApprovalPolicyEntry} {target predecessor : String}
    {deployed : Bool} {skip : Option PromotionSkip}
    (h : promotionOrderRefusal entry target (some predecessor) deployed skip = none) :
    deployed = true ∨ ∃ k, skip = some k ∧ k.skipped_environment = predecessor := by
  unfold promotionOrderRefusal at h
  simp only at h
  split_ifs at h with hd
  · exact Or.inl hd
  · right
    cases skip with
    | none => cases h
    | some k =>
      simp only at h
      split_ifs at h with hk
      exact ⟨k, rfl, not_not.mp hk⟩

theorem Registry.ordered_eq_ok {reason : Option OrderRefusal} {u : PUnit} :
    Registry.ordered reason = .ok u ↔ reason = none := by
  cases reason <;> simp [Registry.ordered]

/-- A Deployment of the same version, in the same workspace, in an Environment. -/
def DeployedIn (s : Registry) (d : DeploymentRow) (environment : String) : Prop :=
  ∃ d' ∈ s.deployments, d'.workspace_id = d.workspace_id ∧ d'.environment = environment ∧
    d'.rating_version_ref = d.rating_version_ref

/-- A request for exactly the Environment and the version of a Deployment. -/
def Matches (r : DeploymentRequestRow) (d : DeploymentRow) : Prop :=
  d.deployment_request_id = some r.id ∧ r.workspace_id = d.workspace_id ∧ r.slug = d.environment ∧
    r.rating_version_ref = d.rating_version_ref

/-- A request that pins a recorded skip of an Environment. -/
def Skips (r : DeploymentRequestRow) (predecessor : String) : Prop :=
  ∃ k, r.evidence.uat_deployment = .skip k ∧ k.skipped_environment = predecessor

/-- A Deployment of the id, the workspace, the Environment and the version that a call names. -/
def Registry.DeployCall.Asks (c : Registry.DeployCall) (d : DeploymentRow) : Prop :=
  d.id = c.id ∧ d.workspace_id = c.workspace_id ∧ d.environment = c.environment ∧
    d.rating_version_ref = refText c.rating_version_ref

/-- How an event lets a Deployment in: a deploy by an approved request of its own or where nothing
gates the Environment, and a rollback to a Deployment of the same Environment. -/
inductive Admitted (s : Registry) (d : DeploymentRow) : GateEvent → Prop
  | gated (c : Registry.DeployCall) (hasks : c.Asks d) (r : DeploymentRequestRow)
      (hr : r ∈ s.requests) (hstatus : r.status = .approved) (hm : Matches r d)
      (horder : ∀ k, r.evidence.uat_deployment = .skip k →
        ∀ predecessor, s.prior d.environment = some predecessor → k.skipped_environment = predecessor) :
      Admitted s d (.deploy c)
  | ungated (c : Registry.DeployCall) (hasks : c.Asks d) (hnone : d.deployment_request_id = none)
      (hentry : (s.approvals.policies d.workspace_id).entryFor "deployment" (some d.environment) =
        none)
      (horder : ∀ predecessor, s.prior d.environment = some predecessor →
        DeployedIn s d predecessor) : Admitted s d (.deploy c)
  | rollback (c : Registry.DeployCall) (hasks : c.Asks d) (hnone : d.deployment_request_id = none)
      (hrepeat : DeployedIn s d d.environment) : Admitted s d (.rollback c)

theorem Registry.request?_eq_some {workspace_id : UUID} {ref : ArtifactRef}
    {r : DeploymentRequestRow} (h : s.request? workspace_id ref = some r) :
    r ∈ s.requests ∧ r.workspace_id = workspace_id := by
  have := List.find?_some h
  simp only [decide_eq_true_eq] at this
  exact ⟨List.mem_of_find?_eq_some h, this.1⟩

theorem Registry.predecessorDeployment_isSome {workspace_id : UUID} {env : EnvironmentRow}
    {ref : ArtifactRef} (h : (s.predecessorDeployment workspace_id env ref).isSome)
    {predecessor : String} (hp : env.requires_prior_environment = some predecessor) :
    ∃ d ∈ s.deployments, d.workspace_id = workspace_id ∧ d.environment = predecessor ∧
      d.rating_version_ref = refText ref := by
  obtain ⟨d, hd⟩ := Option.isSome_iff_exists.mp h
  rw [predecessorDeployment, hp, Option.bind_some] at hd
  exact ⟨d, Registry.mem_deployed.mp (Registry.mem_of_lastOf hd)⟩

inductive Writes (s : Registry) (e : GateEvent) : Registry → Prop
  | gated (d : DeploymentRow) (r : DeploymentRequestRow)
      (hr : r ∈ s.requests) (hstatus : r.status = .approved) (hm : Matches r d)
      (ha : Admitted s d e) (henv : (s.environment? d.environment).isSome) :
      Writes s e { s.setStatus r.id .executed with deployments := d :: s.deployments }
  | free (d : DeploymentRow) (hnone : d.deployment_request_id = none)
      (ha : Admitted s d e) (henv : (s.environment? d.environment).isSome) :
      Writes s e { s with deployments := d :: s.deployments }

theorem Registry.deploy_writes (h : s.deploy c = .ok s') : Writes s (.deploy c) s' := by
  simp only [deploy, bind_eq_ok, ensure_eq_ok] at h
  obtain ⟨-, -, env, henv, hash, -, h⟩ := h
  obtain ⟨henv, hslug⟩ := authorisedEnvironment_eq_ok henv
  have hsome : (s.environment? env.slug).isSome := by rw [hslug, henv]; rfl
  have hprior : s.prior env.slug = env.requires_prior_environment := hslug ▸ prior_eq henv
  split at h
  · rename_i hentry
    simp only [bind_eq_ok, ensure_eq_ok, ordered_eq_ok, pure_eq_ok] at h
    obtain ⟨-, -, -, horder, rfl⟩ := h
    refine .free (c.row env hash none) rfl
      (.ungated c ⟨rfl, rfl, hslug, rfl⟩ rfl hentry fun predecessor hp => ?_) hsome
    rw [show (c.row env hash none).environment = env.slug from rfl, hprior] at hp
    rw [hp] at horder
    rcases promotionOrder_eq_none horder with hd | ⟨k, hk, -⟩
    · exact predecessorDeployment_isSome hd hp
    · cases hk
  · rename_i entry hentry
    simp only [bind_eq_ok, ensure_eq_ok, ordered_eq_ok, pure_eq_ok] at h
    obtain ⟨r, hr, -, horder, -, hstill, rfl⟩ := h
    simp only [executableRequest, bind_eq_ok, ensure_eq_ok, require_eq_ok, pure_eq_ok] at hr
    obtain ⟨named, -, -, -, row, hrow, -, ⟨hslug', href, hstatus⟩, rfl⟩ := hr
    obtain ⟨hmem, hws⟩ := request?_eq_some hrow
    have hm : Matches row (c.row env hash (some row.id)) := ⟨rfl, hws, hslug', href⟩
    refine .gated _ row hmem hstatus hm (.gated c ⟨rfl, rfl, hslug, rfl⟩ row hmem hstatus hm
      fun k hk predecessor hp => ?_) hsome
    rw [show (c.row env hash (some row.id)).environment = env.slug from rfl, hprior] at hp
    rw [hk, hp] at horder
    rcases promotionOrder_eq_none horder with hd | ⟨k', hk', hskip⟩
    · cases hd
    · rw [Option.some.inj hk']
      exact hskip

theorem Registry.rollback_writes (h : s.rollback c = .ok s') : Writes s (.rollback c) s' := by
  simp only [rollback, bind_eq_ok, ensure_eq_ok, require_eq_ok, pure_eq_ok] at h
  obtain ⟨-, -, env, henv, target, htarget, rfl⟩ := h
  obtain ⟨henv, hslug⟩ := authorisedEnvironment_eq_ok henv
  have hmem := mem_deployed.mp (mem_of_lastOf htarget)
  exact .free (c.row env target.bundle_hash none) rfl
    (.rollback c ⟨rfl, rfl, hslug, rfl⟩ rfl ⟨target, hmem.1, hmem.2.1, hmem.2.2.1, hmem.2.2.2⟩)
    (by rw [show (c.row env target.bundle_hash none).environment = c.environment from hslug, henv]
        rfl)

end Calls

/-! ## One step -/

/-- What a step never takes away: requests but for their status, Deployments, and the order. -/
structure Grows (s s' : Registry) : Prop where
  requests : ∀ r ∈ s.requests, ∃ r' ∈ s'.requests, r'.id = r.id ∧ r'.workspace_id = r.workspace_id ∧
    r'.slug = r.slug ∧ r'.rating_version_ref = r.rating_version_ref ∧ r'.evidence = r.evidence ∧
    (r.status = .executed → r'.status = .executed)
  deployments : s.deployments ⊆ s'.deployments
  prior : ∀ slug, (s.environment? slug).isSome →
    (s'.environment? slug).isSome ∧ s'.prior slug = s.prior slug

/-- Evidence of a Deployment rests on one of the version in the predecessor. -/
def EvidenceHolds (s : Registry) (r : DeploymentRequestRow) : Prop :=
  ∀ id, r.evidence.uat_deployment = .deployment id →
    ∀ predecessor, s.prior r.slug = some predecessor →
      ∃ d ∈ s.deployments, d.workspace_id = r.workspace_id ∧ d.environment = predecessor ∧
        d.rating_version_ref = r.rating_version_ref

inductive Turns (s : Registry) (e : GateEvent) : Registry → Prop
  | quiet {s' : Registry} (hr : s'.requests = s.requests) (hd : s'.deployments = s.deployments)
      (hp : ∀ slug, (s.environment? slug).isSome →
        (s'.environment? slug).isSome ∧ s'.prior slug = s.prior slug) : Turns s e s'
  | requested {s' : Registry} (row : DeploymentRequestRow) (hnew : ∀ r ∈ s.requests, r.id ≠ row.id)
      (henv : (s.environment? row.slug).isSome) (hev : EvidenceHolds s row)
      (hr : s'.requests = s.requests ++ [row]) (hd : s'.deployments = s.deployments)
      (he : s'.environments = s.environments) : Turns s e s'
  | decided {s' : Registry} (r : DeploymentRequestRow) (target : DeploymentRequestStatus)
      (hmem : r ∈ s.requests) (hstatus : r.status = .review)
      (hr : s'.requests = (s.setStatus r.id target).requests)
      (hd : s'.deployments = s.deployments) (he : s'.environments = s.environments) : Turns s e s'
  | wrote {s' : Registry} (hw : Writes s e s') : Turns s e s'

theorem turns_self (s : Registry) (e : GateEvent) : Turns s e s :=
  .quiet rfl rfl fun _ h => ⟨h, rfl⟩

theorem turns_of_approvals {s s' : Registry} {e : GateEvent} (hr : s'.requests = s.requests)
    (hd : s'.deployments = s.deployments) (he : s'.environments = s.environments) : Turns s e s' := by
  refine .quiet hr hd fun slug h => ?_
  have henv : s'.environment? slug = s.environment? slug := by
    rw [Registry.environment?, he, Registry.environment?]
  rw [Registry.prior, henv]
  exact ⟨h, rfl⟩

theorem pinned_evidence {s : Registry} {c : Registry.SubmitRequest} {env : EnvironmentRow}
    {entry : ApprovalPolicyEntry} {evidence : DeploymentRequestEvidence}
    (h : s.pinned c env entry = .ok evidence) (id : UUID)
    (hid : evidence.uat_deployment = .deployment id) (predecessor : String)
    (hp : env.requires_prior_environment = some predecessor) :
    ∃ d ∈ s.deployments, d.workspace_id = c.workspace_id ∧ d.environment = predecessor ∧
      d.rating_version_ref = refText c.rating_version_ref := by
  simp only [Registry.pinned, bind_eq_ok, ensure_eq_ok, require_eq_ok, pure_eq_ok] at h
  obtain ⟨-, -, approval, -, item, hitem, rfl⟩ := h
  obtain rfl : item = .deployment id := hid
  refine Registry.predecessorDeployment_isSome ?_ hp
  rcases hf : s.predecessorDeployment c.workspace_id env c.rating_version_ref with _ | d
  · rw [hf, hp] at hitem
    obtain ⟨k, -, hk⟩ := Option.map_eq_some_iff.mp hitem
    cases hk
  · rfl

theorem submitRequest_turns {s s' : Registry} {e : GateEvent} {c : Registry.SubmitRequest}
    (hnew : ∀ r ∈ s.requests, r.id ≠ c.id) (h : s.submitRequest c = .ok s') : Turns s e s' := by
  simp only [Registry.submitRequest, bind_eq_ok, ensure_eq_ok, require_eq_ok, mapError_eq_ok,
    pure_eq_ok] at h
  obtain ⟨-, -, env, henv, -, -, entry, -, evidence, hev, ⟨approvals, submitted⟩, -, rfl⟩ := h
  obtain ⟨henv, hslug⟩ := Registry.authorisedEnvironment_eq_ok henv
  have hprior : s.prior env.slug = env.requires_prior_environment := hslug ▸ Registry.prior_eq henv
  refine .requested _ hnew (by rw [hslug, henv]; rfl) (fun id hid predecessor hp => ?_) rfl rfl rfl
  exact pinned_evidence hev id hid predecessor (hprior ▸ hp)

theorem applyApprovalDecision_turns {s s' : Registry} {e : GateEvent} {approvals : Store}
    {row : ApprovalRequestRow}
    (h : Registry.applyApprovalDecision { s with approvals := approvals } row = .ok s') :
    Turns s e s' := by
  unfold Registry.applyApprovalDecision at h
  split_ifs at h
  · cases h
    exact turns_of_approvals rfl rfl rfl
  · split at h
    · cases h
      exact turns_of_approvals rfl rfl rfl
    · cases h
      exact turns_of_approvals rfl rfl rfl
    · rename_i r target hr _
      simp only [bind_eq_ok, ensure_eq_ok, pure_eq_ok] at h
      obtain ⟨-, hstatus, rfl⟩ := h
      exact .decided r target (Registry.request?_eq_some hr).1 hstatus rfl rfl rfl

theorem step_turns {s s' : Registry} {e : GateEvent} (h : s.step e = some s') : Turns s e s' := by
  cases e with
  | createEnvironment slug prior =>
    simp only [Registry.step] at h
    split_ifs at h with hg
    cases h
    refine .quiet rfl rfl fun other hother => ?_
    have henv : Registry.environment? { s with environments := s.environments ++ [⟨slug, prior, false⟩] }
        other = s.environment? other := by
      obtain ⟨env, henv⟩ := Option.isSome_iff_exists.mp hother
      rw [Registry.environment?] at henv ⊢
      rw [List.find?_append, henv, Registry.environment?, henv]
      rfl
    rw [Registry.prior, henv]
    exact ⟨hother, rfl⟩
  | retireEnvironment slug =>
    simp only [Registry.step] at h
    split_ifs at h with hg
    cases h
    refine .quiet rfl rfl fun other hother => ?_
    have henv : Registry.environment? { s with environments := s.environments.map fun e =>
        if e.slug = slug then { e with retired := true } else e } other =
        (s.environment? other).map fun e => if e.slug = slug then { e with retired := true } else e := by
      rw [Registry.environment?, List.find?_map, Registry.environment?]
      congr 2
      ext e
      simp only [Function.comp_apply]
      split_ifs <;> rfl
    rw [Registry.prior, henv]
    obtain ⟨env, he⟩ := Option.isSome_iff_exists.mp hother
    rw [Registry.prior, he]
    refine ⟨rfl, ?_⟩
    simp only [Option.map_some, Option.bind_some]
    split_ifs <;> rfl
  | setPolicy workspace_id policy =>
    cases h
    exact turns_of_approvals rfl rfl rfl
  | writeVersions versions =>
    cases h
    exact turns_of_approvals rfl rfl rfl
  | record e =>
    cases h
    exact turns_of_approvals rfl rfl rfl
  | submit c resolve =>
    simp only [Registry.step] at h
    rcases hs : Governance.submit s.approvals c (s.resolveRef c resolve) with e | q <;>
      rw [hs] at h <;> cases h <;> exact turns_of_approvals rfl rfl rfl
  | submitRequest c =>
    simp only [Registry.step] at h
    split_ifs at h with hnew
    rcases hs : s.submitRequest c with e | q <;> rw [hs] at h <;> cases h
    · exact turns_self s _
    · exact submitRequest_turns hnew hs
  | decide d =>
    simp only [Registry.step] at h
    rcases hs : s.decideAndCarry d with e | q <;> rw [hs] at h <;> cases h
    · exact turns_self s _
    · obtain ⟨⟨approvals, row⟩, -, hc⟩ := bind_eq_ok.mp hs
      exact applyApprovalDecision_turns hc
  | withdraw w =>
    simp only [Registry.step] at h
    rcases hs : s.withdrawAndCarry w with e | q <;> rw [hs] at h <;> cases h
    · exact turns_self s _
    · obtain ⟨⟨approvals, row⟩, -, hc⟩ := bind_eq_ok.mp hs
      exact applyApprovalDecision_turns hc
  | deploy c =>
    simp only [Registry.step] at h
    split_ifs at h with hnew
    rcases hs : s.deploy c with e | q <;> rw [hs] at h <;> cases h
    · exact turns_self s _
    · exact .wrote (Registry.deploy_writes hs)
  | rollback c =>
    simp only [Registry.step] at h
    split_ifs at h with hnew
    rcases hs : s.rollback c with e | q <;> rw [hs] at h <;> cases h
    · exact turns_self s _
    · exact .wrote (Registry.rollback_writes hs)

/-! ## The invariant -/

/-- A recorded skip of an Environment, executed for the version of a Deployment. -/
def SkippedIn (s : Registry) (d : DeploymentRow) (environment predecessor : String) : Prop :=
  ∃ d' ∈ s.deployments, d'.workspace_id = d.workspace_id ∧ d'.environment = environment ∧
    d'.rating_version_ref = d.rating_version_ref ∧
    ∃ r ∈ s.requests, r.status = .executed ∧ Matches r d' ∧ Skips r predecessor

structure GateInv (s : Registry) : Prop where
  ids : (s.requests.map (·.id)).Nodup
  known : ∀ d ∈ s.deployments, (s.environment? d.environment).isSome
  targets : ∀ r ∈ s.requests, (s.environment? r.slug).isSome
  executed : ∀ d ∈ s.deployments, ∀ q, d.deployment_request_id = some q →
    ∃ r ∈ s.requests, r.status = .executed ∧ Matches r d
  once : s.deployments.Pairwise fun d d' => ∀ q, d.deployment_request_id = some q →
    d'.deployment_request_id ≠ some q
  evidence : ∀ r ∈ s.requests, EvidenceHolds s r
  order : ∀ d ∈ s.deployments, ∀ predecessor, s.prior d.environment = some predecessor →
    DeployedIn s d predecessor ∨ SkippedIn s d d.environment predecessor

theorem mem_setStatus {s : Registry} {id : UUID} {status : DeploymentRequestStatus}
    {r : DeploymentRequestRow} :
    r ∈ (s.setStatus id status).requests ↔
      ∃ q ∈ s.requests, r = if q.id = id then { q with status := status } else q := by
  simp only [Registry.setStatus, List.mem_map, eq_comm]

theorem ids_setStatus (s : Registry) (id : UUID) (status : DeploymentRequestStatus) :
    (s.setStatus id status).requests.map (·.id) = s.requests.map (·.id) := by
  rw [Registry.setStatus, List.map_map]
  refine List.map_congr_left fun r _ => ?_
  simp only [Function.comp_apply]
  split_ifs <;> rfl

section Growth

variable {s s' : Registry} {d : DeploymentRow} {r : DeploymentRequestRow}

theorem grows_setStatus (hids : (s.requests.map (·.id)).Nodup) (hr : r ∈ s.requests)
    {status : DeploymentRequestStatus} (hne : r.status ≠ .executed ∨ status = .executed)
    (hreq : s'.requests = (s.setStatus r.id status).requests) (hd : s.deployments ⊆ s'.deployments)
    (he : s'.environments = s.environments) : Grows s s' := by
  refine ⟨fun q hq => ?_, hd, fun slug h => ?_⟩
  · rw [hreq]
    refine ⟨_, mem_setStatus.mpr ⟨q, hq, rfl⟩, ?_⟩
    split_ifs with hid
    · refine ⟨rfl, rfl, rfl, rfl, rfl, fun hex => ?_⟩
      rcases hne with hne | hne
      · rw [List.inj_on_of_nodup_map hids hq hr hid] at hex
        exact absurd hex hne
      · exact hne
    · exact ⟨rfl, rfl, rfl, rfl, rfl, id⟩
  · have henv : s'.environment? slug = s.environment? slug := by
      rw [Registry.environment?, he, Registry.environment?]
    rw [Registry.prior, henv]
    exact ⟨h, rfl⟩

theorem Grows.matches (hm : Matches r d) {r' : DeploymentRequestRow} (hid : r'.id = r.id)
    (hws : r'.workspace_id = r.workspace_id) (hslug : r'.slug = r.slug)
    (href : r'.rating_version_ref = r.rating_version_ref) : Matches r' d := by
  obtain ⟨h₁, h₂, h₃, h₄⟩ := hm
  exact ⟨hid ▸ h₁, hws.trans h₂, hslug.trans h₃, href.trans h₄⟩

theorem Grows.executed (h : Grows s s') (hr : r ∈ s.requests) (hex : r.status = .executed)
    (hm : Matches r d) : ∃ r' ∈ s'.requests, r'.status = .executed ∧ Matches r' d ∧
      r'.evidence = r.evidence := by
  obtain ⟨r', hr', hid, hws, hslug, href, hev, hst⟩ := h.requests r hr
  exact ⟨r', hr', hst hex, Grows.matches hm hid hws hslug href, hev⟩

theorem DeployedIn.grow (h : Grows s s') {environment : String} (hd : DeployedIn s d environment) :
    DeployedIn s' d environment := by
  obtain ⟨d', hd', hrest⟩ := hd
  exact ⟨d', h.deployments hd', hrest⟩

theorem SkippedIn.grow (h : Grows s s') {environment predecessor : String}
    (hd : SkippedIn s d environment predecessor) : SkippedIn s' d environment predecessor := by
  obtain ⟨d', hd', hws, henv, href, r, hr, hex, hm, k, hk, hskip⟩ := hd
  obtain ⟨r', hr', hex', hm', hev⟩ := h.executed hr hex hm
  exact ⟨d', h.deployments hd', hws, henv, href, r', hr', hex', hm', k, hev ▸ hk, hskip⟩

theorem EvidenceHolds.grow (h : Grows s s') (henv : (s.environment? r.slug).isSome)
    (hev : EvidenceHolds s r) : EvidenceHolds s' r := by
  intro id hid predecessor hp
  rw [(h.prior _ henv).2] at hp
  obtain ⟨d, hd, hrest⟩ := hev id hid predecessor hp
  exact ⟨d, h.deployments hd, hrest⟩

end Growth

/-- The invariant of the old rows, where a step grows the registry and writes no Deployment. -/
theorem GateInv.grow {s s' : Registry} (h : GateInv s) (hg : Grows s s')
    (hids : (s'.requests.map (·.id)).Nodup) (hd : s'.deployments = s.deployments)
    (htargets : ∀ r ∈ s'.requests, (s'.environment? r.slug).isSome)
    (hev : ∀ r ∈ s'.requests, EvidenceHolds s' r) : GateInv s' where
  ids := hids
  known d hmem := (hg.prior _ (h.known d (hd ▸ hmem))).1
  targets := htargets
  executed d hmem q hq := by
    obtain ⟨r, hr, hex, hm⟩ := h.executed d (hd ▸ hmem) q hq
    obtain ⟨r', hr', hex', hm', -⟩ := hg.executed hr hex hm
    exact ⟨r', hr', hex', hm'⟩
  once := hd ▸ h.once
  evidence := hev
  order d hmem predecessor hp := by
    rw [hd] at hmem
    rw [(hg.prior _ (h.known d hmem)).2] at hp
    exact (h.order d hmem predecessor hp).imp (·.grow hg) (·.grow hg)

theorem order_of_admitted {s s' : Registry} {e : GateEvent} {d : DeploymentRow} (h : GateInv s)
    (hg : Grows s s') (ha : Admitted s d e) (hd : d ∈ s'.deployments)
    (hex : ∀ r ∈ s.requests, Matches r d → ∃ r' ∈ s'.requests, r'.status = .executed ∧
      Matches r' d ∧ r'.evidence = r.evidence) (predecessor : String)
    (hp : s.prior d.environment = some predecessor) :
    DeployedIn s' d predecessor ∨ SkippedIn s' d d.environment predecessor := by
  cases ha with
  | gated c hasks r hr hstatus hm horder =>
    rcases hpin : r.evidence.uat_deployment with id | k
    · have hp' : s.prior r.slug = some predecessor := hm.2.2.1 ▸ hp
      obtain ⟨d', hd', hws, henv, href⟩ := h.evidence r hr id hpin predecessor hp'
      exact Or.inl ⟨d', hg.deployments hd', hws.trans hm.2.1, henv, href.trans hm.2.2.2⟩
    · obtain ⟨r', hr', hex', hm', hev⟩ := hex r hr hm
      exact Or.inr ⟨d, hd, rfl, rfl, rfl, r', hr', hex', hm', k, hev ▸ hpin,
        horder k hpin predecessor hp⟩
  | ungated c hasks hnone hentry horder => exact Or.inl ((horder predecessor hp).grow hg)
  | rollback c hasks hnone hrepeat =>
    obtain ⟨d', hd', hws, henv, href⟩ := hrepeat
    rcases h.order d' hd' predecessor (henv ▸ hp) with ⟨e, he, hews, heenv, heref⟩ |
      ⟨e, he, hews, heenv, heref, hskip⟩
    · exact Or.inl ⟨e, hg.deployments he, hews.trans hws, heenv, heref.trans href⟩
    · have hs : SkippedIn s d d.environment predecessor :=
        ⟨e, he, hews.trans hws, heenv.trans henv, heref.trans href, hskip⟩
      exact Or.inr (hs.grow hg)

theorem gateInv_wrote {s s' : Registry} {e : GateEvent} (h : GateInv s) (hw : Writes s e s') : GateInv s' := by
  cases hw with
  | free d hnone ha henv =>
    have hg : Grows s { s with deployments := d :: s.deployments } :=
      ⟨fun r hr => ⟨r, hr, rfl, rfl, rfl, rfl, rfl, id⟩, List.subset_cons_self _ _,
        fun slug hs => ⟨hs, rfl⟩⟩
    refine ⟨h.ids, ?_, h.targets, ?_, ?_, fun r hr => (h.evidence r hr).grow hg (h.targets r hr), ?_⟩
    · exact List.forall_mem_cons.mpr ⟨henv, h.known⟩
    · refine List.forall_mem_cons.mpr ⟨fun q hq => ?_, h.executed⟩
      rw [hnone] at hq
      cases hq
    · refine List.pairwise_cons.mpr ⟨fun d' _ q hq => ?_, h.once⟩
      rw [hnone] at hq
      cases hq
    · refine List.forall_mem_cons.mpr ⟨fun predecessor hp => ?_, fun d' hd' predecessor hp => ?_⟩
      · refine order_of_admitted h hg ha List.mem_cons_self (fun r hr hm => ?_) predecessor hp
        exact absurd (hnone.symm.trans hm.1) nofun
      · exact (h.order d' hd' predecessor hp).imp (·.grow hg) (·.grow hg)
  | gated d r hr hstatus hm ha henv =>
    have hg : Grows s { s.setStatus r.id .executed with deployments := d :: s.deployments } :=
      grows_setStatus h.ids hr (Or.inr rfl) rfl (List.subset_cons_self _ _) rfl
    have hmoved : { r with status := .executed } ∈ (s.setStatus r.id .executed).requests :=
      mem_setStatus.mpr ⟨r, hr, (if_pos rfl).symm⟩
    have hcopy : ∀ q ∈ (s.setStatus r.id .executed).requests, ∃ q' ∈ s.requests,
        q.slug = q'.slug ∧ q.workspace_id = q'.workspace_id ∧
          q.rating_version_ref = q'.rating_version_ref ∧ q.evidence = q'.evidence := by
      intro q hq
      obtain ⟨q', hq', rfl⟩ := mem_setStatus.mp hq
      refine ⟨q', hq', ?_⟩
      split_ifs <;> exact ⟨rfl, rfl, rfl, rfl⟩
    refine ⟨?_, ?_, fun q hq => ?_, ?_, ?_, fun q hq => ?_, ?_⟩
    · exact (ids_setStatus s r.id .executed).symm ▸ h.ids
    · exact List.forall_mem_cons.mpr ⟨henv, h.known⟩
    · obtain ⟨q', hq', hslug, -⟩ := hcopy q hq
      rw [hslug]
      exact h.targets q' hq'
    · refine List.forall_mem_cons.mpr ⟨fun _ _ => ⟨_, hmoved, rfl, hm⟩, fun d' hd' q hq => ?_⟩
      obtain ⟨r', hr', hex, hm'⟩ := h.executed d' hd' q hq
      obtain ⟨r'', hr'', hex', hm'', -⟩ := hg.executed hr' hex hm'
      exact ⟨r'', hr'', hex', hm''⟩
    · refine List.pairwise_cons.mpr ⟨fun d' hd' q hq hq' => ?_, h.once⟩
      -- The request of an earlier Deployment is executed, and this one was still approved.
      obtain ⟨r', hr', hex, hm'⟩ := h.executed d' hd' q hq'
      have hid' : r'.id = r.id := by
        rw [← Option.some_inj, ← hm'.1, hq', ← hq, hm.1]
      rw [List.inj_on_of_nodup_map h.ids hr' hr hid', hstatus] at hex
      cases hex
    · obtain ⟨q', hq', hslug, hws, href, hev⟩ := hcopy q hq
      have hold := (h.evidence q' hq').grow hg (h.targets q' hq')
      intro id hid' predecessor hp
      rw [hws, href]
      exact hold id (hev ▸ hid') predecessor (hslug ▸ hp)
    · refine List.forall_mem_cons.mpr ⟨fun predecessor hp => ?_, fun d' hd' predecessor hp => ?_⟩
      · refine order_of_admitted h hg ha List.mem_cons_self (fun r' hr' hm' => ?_) predecessor hp
        have hrr : r' = r := List.inj_on_of_nodup_map h.ids hr' hr
          (Option.some.inj (hm'.1.symm.trans hm.1))
        rw [hrr]
        exact ⟨_, hmoved, rfl, hm, rfl⟩
      · exact (h.order d' hd' predecessor hp).imp (·.grow hg) (·.grow hg)

theorem gateInv_step (s : Registry) (e : GateEvent) (s' : Registry) (h : GateInv s)
    (hs : s.step e = some s') : GateInv s' := by
  cases step_turns hs with
  | quiet hr hd hp =>
    have hg : Grows s s' :=
      ⟨fun r hmem => ⟨r, hr ▸ hmem, rfl, rfl, rfl, rfl, rfl, id⟩, hd ▸ List.Subset.refl _, hp⟩
    refine h.grow hg (hr ▸ h.ids) hd (fun r hmem => ?_) fun r hmem => ?_
    · exact (hp _ (h.targets r (hr ▸ hmem))).1
    · exact (h.evidence r (hr ▸ hmem)).grow hg (h.targets r (hr ▸ hmem))
  | requested row hnew henv hev hr hd he =>
    have hprior : ∀ slug, (s.environment? slug).isSome →
        (s'.environment? slug).isSome ∧ s'.prior slug = s.prior slug := fun slug hs => by
      have henv' : s'.environment? slug = s.environment? slug := by
        rw [Registry.environment?, he, Registry.environment?]
      rw [Registry.prior, henv']
      exact ⟨hs, rfl⟩
    have hg : Grows s s' :=
      ⟨fun r hmem => ⟨r, hr ▸ List.mem_append_left _ hmem, rfl, rfl, rfl, rfl, rfl, id⟩,
        hd ▸ List.Subset.refl _, hprior⟩
    refine h.grow hg ?_ hd (fun r hmem => ?_) fun r hmem => ?_
    · rw [hr, List.map_append, List.nodup_append]
      refine ⟨h.ids, List.nodup_singleton _, ?_⟩
      rintro a ha b hb rfl
      obtain ⟨r, hmem, hid⟩ := List.mem_map.mp ha
      rw [List.map_singleton, List.mem_singleton] at hb
      exact hnew r hmem (hid.trans hb)
    · rw [hr] at hmem
      rcases List.mem_append.mp hmem with hmem | hmem
      · exact (hprior _ (h.targets r hmem)).1
      · obtain rfl := List.mem_singleton.mp hmem
        exact (hprior _ henv).1
    · rw [hr] at hmem
      rcases List.mem_append.mp hmem with hmem | hmem
      · exact (h.evidence r hmem).grow hg (h.targets r hmem)
      · obtain rfl := List.mem_singleton.mp hmem
        exact hev.grow hg henv
  | decided r target hmem hstatus hr hd he =>
    have hg : Grows s s' := grows_setStatus h.ids hmem (Or.inl (by rw [hstatus]; decide)) hr
      (hd ▸ List.Subset.refl _) he
    have hcopy : ∀ q ∈ s'.requests, ∃ q' ∈ s.requests, q.slug = q'.slug ∧
        (EvidenceHolds s' q' → EvidenceHolds s' q) := by
      intro q hq
      rw [hr] at hq
      obtain ⟨q', hq', rfl⟩ := mem_setStatus.mp hq
      refine ⟨q', hq', ?_⟩
      split_ifs <;> exact ⟨rfl, id⟩
    refine h.grow hg ?_ hd (fun q hq => ?_) fun q hq => ?_
    · rw [hr, ids_setStatus]
      exact h.ids
    · obtain ⟨q', hq', hslug, -⟩ := hcopy q hq
      rw [hslug]
      exact (hg.prior _ (h.targets q' hq')).1
    · obtain ⟨q', hq', -, hev⟩ := hcopy q hq
      exact hev ((h.evidence q' hq').grow hg (h.targets q' hq'))
  | wrote hw => exact gateInv_wrote h hw

theorem gateInv_init (policies : UUID → ApprovalPolicy) : GateInv (.init policies) :=
  ⟨List.nodup_nil, nofun, nofun, nofun, .nil, nofun, nofun⟩

/-! ## Every run -/

/-- One Environment is the predecessor of another. -/
def Requires (s : Registry) (environment predecessor : String) : Prop :=
  s.prior environment = some predecessor

/-- What holds of the Deployments of every reachable state. -/
structure Sound (s : Registry) : Prop where
  executed : ∀ d ∈ s.deployments, ∀ q, d.deployment_request_id = some q →
    ∃ r ∈ s.requests, r.status = .executed ∧ Matches r d
  once : s.deployments.Pairwise fun d d' => ∀ q, d.deployment_request_id = some q →
    d'.deployment_request_id ≠ some q
  order : ∀ d ∈ s.deployments, ∀ a, Relation.TransGen (Requires s) d.environment a →
    DeployedIn s d a ∨ ∃ b predecessor, Relation.ReflTransGen (Requires s) d.environment b ∧
      Requires s b predecessor ∧ Relation.ReflTransGen (Requires s) predecessor a ∧
      SkippedIn s d b predecessor

theorem GateInv.sound {s : Registry} (h : GateInv s) : Sound s where
  executed := h.executed
  once := h.once
  order d hd a ha := by
    induction ha with
    | single hp =>
      rename_i predecessor
      rcases h.order d hd predecessor hp with hdep | hskip
      · exact Or.inl hdep
      · exact Or.inr ⟨_, predecessor, .refl, hp, .refl, hskip⟩
    | tail hb hp ih =>
      rename_i b predecessor
      rcases ih with ⟨d', hd', hws, henv, href⟩ | ⟨b', p', hb', hp', hpa, hskip⟩
      · rcases h.order d' hd' predecessor (henv ▸ hp) with ⟨e, he, hews, heenv, heref⟩ |
          ⟨e, he, hews, heenv, heref, hr⟩
        · exact Or.inl ⟨e, he, hews.trans hws, heenv, heref.trans href⟩
        · exact Or.inr ⟨b, predecessor, hb.to_reflTransGen, hp, .refl,
            e, he, hews.trans hws, heenv.trans henv, heref.trans href, hr⟩
      · exact Or.inr ⟨b', p', hb', hp', hpa.tail hp, hskip⟩

/-- Every Deployment that an event writes is let in by that event. -/
def LetIn (s : Registry) (e : GateEvent) (s' : Registry) : Prop :=
  ∀ d ∈ s'.deployments, d ∈ s.deployments ∨ Admitted s d e

theorem letIn_of_step {s s' : Registry} {e : GateEvent} (h : s.step e = some s') : LetIn s e s' := by
  cases step_turns h with
  | quiet hr hd hp => exact fun d hmem => Or.inl (hd ▸ hmem)
  | requested row hnew henv hev hr hd he => exact fun d hmem => Or.inl (hd ▸ hmem)
  | decided r target hmem hstatus hr hd he => exact fun d hmem => Or.inl (hd ▸ hmem)
  | wrote hw =>
    cases hw with
    | gated d r hr hstatus hm ha henv =>
      exact List.forall_mem_cons.mpr ⟨Or.inr ha, fun d' hd' => Or.inl hd'⟩
    | free d hnone ha henv =>
      exact List.forall_mem_cons.mpr ⟨Or.inr ha, fun d' hd' => Or.inl hd'⟩

/-- In every run each request is executed once, for its Environment and version; a Deployment
into a gated Environment is of a deploy with such a request or of a rollback; and the Environments
before it had the version, unless a request skips one of them. -/
theorem deployments_gated (policies : UUID → ApprovalPolicy) (events : List GateEvent) :
    Always Registry.step (fun s e s' => LetIn s e s' ∧ Sound s') (.init policies) events :=
  always_of_preserves (fun s e s' h hs =>
    ⟨gateInv_step s e s' h hs, letIn_of_step hs, (gateInv_step s e s' h hs).sound⟩)
    (gateInv_init policies) events

/-! ## Rollbacks and skips -/

/-- The claim without rollbacks and skips: a Deployment into a gated Environment has a request,
and its version had been deployed in the predecessor. -/
def StrictlyGated (s s' : Registry) : Prop :=
  ∀ d ∈ s'.deployments, d ∈ s.deployments ∨
    (((s.approvals.policies d.workspace_id).entryFor "deployment" (some d.environment)).isSome →
      ∃ r ∈ s'.requests, r.status = .executed ∧ Matches r d) ∧
    ∀ predecessor, s.prior d.environment = some predecessor → DeployedIn s d predecessor

/-- `prod` is gated and may skip `dev`; a rating version takes one approver. -/
def skipPolicy : ApprovalPolicy :=
  ⟨[⟨"rating_version", 1, ["approver"], none, [], by decide⟩,
    ⟨"deployment", 1, ["approver"], some "prod", ["dev"], by decide⟩]⟩

def motor : ArtifactRef := ⟨"rating_version", "motor", 1⟩

def approver : Principal := ⟨9, [.approvalDecide], ["approver"]⟩

def promoter : Principal := ⟨8, [.deploymentPromote], []⟩

/-- A version is approved, requested for `prod` with a skip of `dev`, deployed and rolled back. -/
def skipAndRollback : List GateEvent :=
  [.createEnvironment "dev" none, .createEnvironment "prod" (some "dev"),
    .writeVersions [⟨1, motor, "approved", some "sha256:0"⟩],
    .record ⟨1, motor, "rating_version.created", 7⟩,
    .submit ⟨1, 1, promoter, motor, "new rates", none, 0⟩ (.ok ⟨⟩),
    .decide ⟨1, 1, approver, .approve, none, some fun _ => some []⟩,
    .submitRequest ⟨1, 2, 1, promoter, "prod", motor, "go live",
      some ⟨"dev", "tested elsewhere", by decide⟩⟩,
    .decide ⟨1, 2, approver, .approve, none, none⟩,
    .deploy ⟨1, 10, 1, promoter, "prod", motor, some ⟨"deployment", "prod", 1⟩⟩]

/-- A rollback writes a Deployment into a gated Environment without a request, here of a version
that was never deployed before it in `dev`. -/
theorem rollback_without_request :
    ¬ ∀ policies events,
      Always Registry.step (fun s _ s' => StrictlyGated s s') (.init policies) events := by
  intro h
  let call : GateEvent := .rollback ⟨2, 20, 1, promoter, "prod", motor, none⟩
  have hgate : (run Registry.step (.init fun _ => skipPolicy) skipAndRollback).map
      (fun s => ((s.approvals.policies 1).entryFor "deployment" (some "prod")).isSome) =
      some true := by decide
  have hbefore : (run Registry.step (.init fun _ => skipPolicy) skipAndRollback).map
      (fun s => s.deployments.map (·.id)) = some [1] := by decide
  have hafter : ((run Registry.step (.init fun _ => skipPolicy) skipAndRollback).bind
      fun s => (s.step call).map (·.deployments.head?)) = some (some
        ⟨2, 1, "prod", "rating_version:motor@1", "sha256:0", 20, none⟩) := by decide
  obtain ⟨s, hs, hafter⟩ := Option.bind_eq_some_iff.mp hafter
  obtain ⟨s', hs', hhead⟩ := Option.map_eq_some_iff.mp hafter
  rw [hs, Option.map_some, Option.some.injEq] at hgate hbefore
  have hstrict := (h (fun _ => skipPolicy) (skipAndRollback ++ [call])).last hs hs'
  rcases hstrict _ (List.mem_of_mem_head? hhead) with hold | ⟨hreq, -⟩
  · have hid := List.mem_map_of_mem (f := (·.id)) hold
    rw [hbefore] at hid
    simp at hid
  · obtain ⟨r, -, -, hm, -⟩ := hreq hgate
    cases hm

end GiPricing.Deployment
