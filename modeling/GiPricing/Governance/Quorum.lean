import GiPricing.Governance.Platform

/-! # Quorum and finality

A request is approved by distinct users who are neither its submitter nor the author, and a
decided request keeps its decisions. Only a withdrawal moves it, and never out of a rejection.
-/

namespace GiPricing.Governance

open Transition

/-! ## One step -/

/-- What an event does to the requests and the decisions. -/
inductive Moves (p : Platform) : Event → Platform → Prop
  | idle {e : Event} {p' : Platform} (hr : p'.store.requests = p.store.requests)
      (hd : p'.store.decisions = p.store.decisions)
      (ha : ∃ events, p'.store.audit = p.store.audit ++ events) : Moves p e p'
  | submit {e : Event} {p' : Platform} (row : ApprovalRequestRow)
      (hs : p'.store = { p.store with requests := p.store.requests ++ [row] })
      (hnew : ∀ r ∈ p.store.requests, r.id ≠ row.id) (hstatus : row.status = .review) : Moves p e p'
  | decide {p' : Platform} (d : Decision) (clear : Bool) (old new : ApprovalRequestRow)
      (h : Decided p.store p'.store d old new) : Moves p (.decide d clear) p'
  | withdraw {p' : Platform} (w : Withdrawal) (clear : Bool) (old : ApprovalRequestRow)
      (hold : old ∈ p.store.requests) (hid : old.id = w.request_id)
      (hlive : p.isDeployed w.workspace_id w.request_id = false)
      (hstatus : old.status = .withdrawn ∨ old.status = .review ∨ old.status = .approved)
      (hs : p'.store = p.store.put
        { old with status := .withdrawn, withdrawn_reason := some w.reason }) :
      Moves p (.withdraw w clear) p'

theorem moves_self (p : Platform) (e : Event) : Moves p e p :=
  .idle rfl rfl ⟨[], (List.append_nil _).symm⟩

theorem step_moves {p p' : Platform} {e : Event} (h : p.step e = some p') : Moves p e p' := by
  cases e with
  | setPolicy workspace_id policy =>
    cases h
    exact .idle rfl rfl ⟨[], (List.append_nil _).symm⟩
  | record event =>
    cases h
    exact .idle rfl rfl ⟨[event], rfl⟩
  | own versions =>
    cases h
    exact .idle rfl rfl ⟨[], (List.append_nil _).symm⟩
  | deploy workspace_id ref =>
    cases h
    exact .idle rfl rfl ⟨[], (List.append_nil _).symm⟩
  | submit s resolve =>
    simp only [Platform.step] at h
    split_ifs at h with hnew
    rcases hsub : submit p.store s resolve with e | ⟨g, row⟩ <;> rw [hsub] at h <;> cases h
    · exact moves_self p _
    · obtain ⟨hg, hid, hstatus, -⟩ := submit_eq_ok hsub
      exact .submit row hg (fun r hr => hid ▸ hnew r hr) hstatus
  | decide d clear =>
    simp only [Platform.step] at h
    rcases hd : p.decideAndCarry d clear with e | q <;> rw [hd] at h <;> cases h
    · exact moves_self p _
    · obtain ⟨row, hrow⟩ := Platform.decideAndCarry_eq_ok hd
      obtain ⟨old, hold⟩ := decide_eq_ok hrow
      exact .decide d clear old row hold
  | withdraw w clear =>
    simp only [Platform.step] at h
    rcases hw : p.withdrawAndCarry w clear with e | q <;> rw [hw] at h <;> cases h
    · exact moves_self p _
    · obtain ⟨row, hrow⟩ := Platform.withdrawAndCarry_eq_ok hw
      obtain ⟨old, hold, hid, hlive, hstatus, rfl, hg⟩ := withdraw_eq_ok hrow
      exact .withdraw w clear old hold hid hlive hstatus hg

/-! ## The invariant -/

/-- An approver of a request is neither its submitter nor the author of its version. -/
def Separate (g : Store) (r : ApprovalRequestRow) (approver : UUID) : Prop :=
  r.submitted_by ≠ approver ∧
    ∃ author, authorOf g r.workspace_id r.artifact_ref = some author ∧ author ≠ approver

structure Inv (g : Store) : Prop where
  ids : (g.requests.map (·.id)).Nodup
  known : ∀ d ∈ g.decisions, ∃ r ∈ g.requests, r.id = d.request_id
  once : g.decisions.Pairwise fun d e => d.request_id = e.request_id → d.approver_id ≠ e.approver_id
  separate : ∀ d ∈ g.decisions, ∀ r ∈ g.requests, r.id = d.request_id → Separate g r d.approver_id
  quorum : ∀ r ∈ g.requests, r.status = .approved → r.approvers_required ≤ countApprovals g r.id

theorem authorOf_append {g g' : Store} {events : List AuditEventRow} {workspace_id author : UUID}
    {ref : ArtifactRef} (ha : g'.audit = g.audit ++ events)
    (h : authorOf g workspace_id ref = some author) : authorOf g' workspace_id ref = some author := by
  simp only [authorOf, Option.bind_eq_some_iff, Option.map_eq_some_iff] at h ⊢
  obtain ⟨action, haction, e, he, hactor⟩ := h
  exact ⟨action, haction, e, by rw [ha, List.find?_append, he]; rfl, hactor⟩

theorem Separate.append {g g' : Store} {events : List AuditEventRow} {r : ApprovalRequestRow}
    {approver : UUID} (ha : g'.audit = g.audit ++ events) (h : Separate g r approver) :
    Separate g' r approver := by
  obtain ⟨hs, author, hauthor, hne⟩ := h
  exact ⟨hs, author, authorOf_append ha hauthor, hne⟩

theorem countApprovals_append (g g' : Store) (d : ApprovalDecisionRow) (id : UUID)
    (hd : g'.decisions = g.decisions ++ [d]) :
    countApprovals g' id =
      countApprovals g id + if d.request_id = id ∧ d.decision = .approve then 1 else 0 := by
  rw [countApprovals, hd, List.filter_append, List.length_append, ← countApprovals]
  by_cases h : d.request_id = id ∧ d.decision = .approve <;> simp [h]

theorem Inv.idle {g g' : Store} {events : List AuditEventRow} (h : Inv g)
    (hr : g'.requests = g.requests) (hd : g'.decisions = g.decisions)
    (ha : g'.audit = g.audit ++ events) : Inv g' where
  ids := hr ▸ h.ids
  known := by rw [hd, hr]; exact h.known
  once := hd ▸ h.once
  separate d hmem r hmem' he := by
    rw [hd] at hmem
    rw [hr] at hmem'
    exact (h.separate d hmem r hmem' he).append ha
  quorum r hmem hstatus := by
    rw [hr] at hmem
    rw [countApprovals, hd]
    exact h.quorum r hmem hstatus

theorem Inv.submit {g : Store} {row : ApprovalRequestRow} (h : Inv g)
    (hnew : ∀ r ∈ g.requests, r.id ≠ row.id) (hstatus : row.status = .review) :
    Inv { g with requests := g.requests ++ [row] } where
  ids := by
    rw [List.map_append, List.nodup_append]
    refine ⟨h.ids, List.nodup_singleton _, ?_⟩
    rintro a ha b hb rfl
    obtain ⟨r, hr, he⟩ := List.mem_map.mp ha
    rw [List.map_singleton, List.mem_singleton] at hb
    exact hnew r hr (he.trans hb)
  known d hd := by
    obtain ⟨r, hr, he⟩ := h.known d hd
    exact ⟨r, List.mem_append_left _ hr, he⟩
  once := h.once
  separate d hd r hr he := by
    rcases List.mem_append.mp hr with hr | hr
    · exact h.separate d hd r hr he
    · obtain rfl := List.mem_singleton.mp hr
      obtain ⟨q, hq, hqd⟩ := h.known d hd
      exact absurd (hqd.trans he.symm) (hnew q hq)
  quorum r hr happroved := by
    rcases List.mem_append.mp hr with hr | hr
    · exact h.quorum r hr happroved
    · obtain rfl := List.mem_singleton.mp hr
      rw [hstatus] at happroved
      cases happroved

theorem Inv.decide {g g' : Store} {d : Decision} {old new : ApprovalRequestRow} (h : Inv g)
    (hd : Decided g g' d old new) : Inv g' := by
  have hid : new.id = old.id := by rw [hd.new_eq]
  have hmem : ∀ r, r ∈ g'.requests ↔ r = new ∨ r ∈ g.requests ∧ r.id ≠ old.id := fun r => by
    rw [hd.store]
    exact mem_put (g := { g with decisions := g'.decisions }) hd.mem hid
  have haudit : g'.audit = g.audit ++ [] := by
    rw [hd.store, List.append_nil]
    rfl
  have hnew : ∀ approver, Separate g' new approver ↔ Separate g' old approver := fun approver => by
    rw [hd.new_eq]
    rfl
  have hcount := fun id => countApprovals_append g g' _ id hd.decisions
  refine ⟨?_, fun e he => ?_, ?_, fun e he r hr hre => ?_, fun r hr happroved => ?_⟩
  · rw [hd.store, ids_put]
    exact h.ids
  · rw [hd.decisions] at he
    have hold : ∃ r ∈ g.requests, r.id = e.request_id := by
      rcases List.mem_append.mp he with he | he
      · exact h.known e he
      · obtain rfl := List.mem_singleton.mp he
        exact ⟨old, hd.mem, rfl⟩
    obtain ⟨r, hr, hre⟩ := hold
    by_cases hro : r.id = old.id
    · exact ⟨new, (hmem new).mpr (Or.inl rfl), by rw [hid, ← hro, hre]⟩
    · exact ⟨r, (hmem r).mpr (Or.inr ⟨hr, hro⟩), hre⟩
  · rw [hd.decisions, List.pairwise_append]
    refine ⟨h.once, List.pairwise_singleton _ _, fun e he e' he' hre hap => hd.once ?_⟩
    obtain rfl := List.mem_singleton.mp he'
    exact ⟨e, he, hre, hap⟩
  · rw [hd.decisions] at he
    rcases List.mem_append.mp he with he | he
    · rcases (hmem r).mp hr with rfl | ⟨hr, -⟩
      · rw [hnew]
        exact (h.separate e he old hd.mem (hid ▸ hre)).append haudit
      · exact (h.separate e he r hr hre).append haudit
    · obtain rfl := List.mem_singleton.mp he
      rcases (hmem r).mp hr with rfl | ⟨-, hne⟩
      · rw [hnew]
        refine Separate.append haudit ⟨hd.submitter, ?_⟩
        rw [hd.workspace]
        exact hd.author
      · exact absurd hre hne
  · rcases (hmem r).mp hr with rfl | ⟨hr, hne⟩
    · rw [hd.new_eq] at happroved ⊢
      simp only at happroved ⊢
      unfold resolveStatus at happroved
      split at happroved
      · cases happroved
      · cases happroved
      · split_ifs at happroved with hle
        exact hle
    · rw [hcount]
      exact (h.quorum r hr happroved).trans (Nat.le_add_right _ _)

theorem Inv.withdraw {g : Store} {old : ApprovalRequestRow} (h : Inv g) (hold : old ∈ g.requests)
    (reason : Option String) :
    Inv (g.put { old with status := .withdrawn, withdrawn_reason := reason }) := by
  have hmem := fun r =>
    @mem_put g old { old with status := .withdrawn, withdrawn_reason := reason } r hold rfl
  refine ⟨?_, fun d hd => ?_, h.once, fun d hd r hr he => ?_, fun r hr happroved => ?_⟩
  · rw [ids_put]
    exact h.ids
  · obtain ⟨r, hr, he⟩ := h.known d hd
    by_cases hro : r.id = old.id
    · exact ⟨_, (hmem _).mpr (Or.inl rfl), hro.symm.trans he⟩
    · exact ⟨r, (hmem r).mpr (Or.inr ⟨hr, hro⟩), he⟩
  · rcases (hmem r).mp hr with rfl | ⟨hr, -⟩
    · exact h.separate d hd old hold he
    · exact h.separate d hd r hr he
  · rcases (hmem r).mp hr with rfl | ⟨hr, -⟩
    · cases happroved
    · exact h.quorum r hr happroved

theorem inv_step (p : Platform) (e : Event) (p' : Platform) (h : Inv p.store)
    (hs : p.step e = some p') : Inv p'.store := by
  cases step_moves hs with
  | idle hr hd ha =>
    obtain ⟨events, ha⟩ := ha
    exact h.idle hr hd ha
  | submit row hrow hnew hstatus =>
    rw [hrow]
    exact h.submit hnew hstatus
  | decide d clear old new hd => exact h.decide hd
  | withdraw w clear old hold hid hlive hstatus hput =>
    rw [hput]
    exact h.withdraw hold _

theorem inv_init (policies : UUID → ApprovalPolicy) : Inv (Platform.init policies).store :=
  ⟨List.nodup_nil, nofun, .nil, nofun, nofun⟩

/-! ## Quorum -/

def decisionsOf (g : Store) (id : UUID) : List ApprovalDecisionRow :=
  g.decisions.filter fun d => d.request_id = id

def approvalsOf (g : Store) (id : UUID) : List ApprovalDecisionRow :=
  g.decisions.filter fun d => d.request_id = id ∧ d.decision = .approve

/-- The call that wrote a decision, whose resolver answered that the approver is no author of the
evidence of a rating version. -/
structure DecidedBy (d : ApprovalDecisionRow) (ref : ArtifactRef) (call : Decision) : Prop where
  request : call.request_id = d.request_id
  approver : call.approver.id = d.approver_id
  decision : call.decision = d.decision
  evidence : ref.type = "rating_version" → ∃ resolver authors,
    call.evidence_authors = some resolver ∧ resolver ref = some authors ∧ d.approver_id ∉ authors

/-- Enough distinct users approved a request, and each was free to. -/
structure Quorum (events : List Event) (g : Store) (r : ApprovalRequestRow) : Prop where
  enough : r.approvers_required ≤ (approvalsOf g r.id).length
  distinct : ((approvalsOf g r.id).map (·.approver_id)).Nodup
  separate : ∀ d ∈ approvalsOf g r.id, Separate g r d.approver_id
  decided : ∀ d ∈ approvalsOf g r.id, ∃ call clear, .decide call clear ∈ events ∧
    DecidedBy d r.artifact_ref call

theorem Decided.decidedBy {g g' : Store} {call : Decision} {old new : ApprovalRequestRow}
    (h : Decided g g' call old new) :
    DecidedBy ⟨old.id, call.approver.id, call.decision, call.comment⟩ old.artifact_ref call := by
  refine ⟨h.id.symm, rfl, rfl, fun ht => ?_⟩
  have hev := h.evidence
  rw [checkEvidenceAuthors, if_pos (show old.artifact_type = _ from ht)] at hev
  simp only [Failure.bind_eq_ok, Failure.require_eq_ok, Failure.ensure_eq_ok] at hev
  obtain ⟨resolver, hr, authors, ha, hn⟩ := hev
  exact ⟨resolver, authors, hr, ha, hn⟩

/-- A decision with the version its request pins. -/
def DecidedOn (p : Platform) (x : ApprovalDecisionRow × ArtifactRef) : Prop :=
  x.1 ∈ p.store.decisions ∧ ∃ r ∈ p.store.requests, r.id = x.1.request_id ∧ r.artifact_ref = x.2

/-- Every decision on a request was written by a call of the run. -/
theorem decidedBy_of_run {policies : UUID → ApprovalPolicy} {events : List Event} {p : Platform}
    (h : run Platform.step (.init policies) events = some p) {d : ApprovalDecisionRow}
    {r : ApprovalRequestRow} (hd : d ∈ p.store.decisions) (hr : r ∈ p.store.requests)
    (hid : r.id = d.request_id) :
    ∃ call clear, .decide call clear ∈ events ∧ DecidedBy d r.artifact_ref call := by
  suffices hstep : ∀ s e s', Inv s.store → Platform.step s e = some s' →
      ∀ x, DecidedOn s' x → DecidedOn s x ∨
        ∃ call clear, e = .decide call clear ∧ DecidedBy x.1 x.2 call by
    rcases @run_history _ _ Platform.step (fun p => Inv p.store) _ _ _ _ DecidedOn _ inv_step hstep
      (inv_init policies) h (d, r.artifact_ref) ⟨hd, r, hr, hid, rfl⟩ with
      ⟨hnil, -⟩ | ⟨e, he, call, clear, rfl, hby⟩
    · cases hnil
    · exact ⟨call, clear, he, hby⟩
  · rintro s e s' hinv hs ⟨d, ref⟩ ⟨hd, r, hr, hid, rfl⟩
    cases step_moves hs with
    | idle hreq hdec ha =>
      rw [hdec] at hd
      rw [hreq] at hr
      exact Or.inl ⟨hd, r, hr, hid, rfl⟩
    | submit row hrow hnew hstatus =>
      rw [hrow] at hd hr
      left
      rcases List.mem_append.mp hr with hr | hr
      · exact ⟨hd, r, hr, hid, rfl⟩
      · obtain rfl := List.mem_singleton.mp hr
        obtain ⟨q, hq, hqd⟩ := hinv.known d hd
        exact absurd (hqd.trans hid.symm) (hnew q hq)
    | decide call clear old new hdec =>
      have hnew : new.id = old.id ∧ new.artifact_ref = old.artifact_ref := by
        rw [hdec.new_eq]
        exact ⟨rfl, rfl⟩
      have hold : ∃ q ∈ s.store.requests, q.id = r.id ∧ q.artifact_ref = r.artifact_ref := by
        rw [hdec.store] at hr
        rcases (@mem_put { s.store with decisions := s'.store.decisions } old new r hdec.mem
          hnew.1).mp hr with rfl | ⟨hr, -⟩
        · exact ⟨old, hdec.mem, hnew.1.symm, hnew.2.symm⟩
        · exact ⟨r, hr, rfl, rfl⟩
      obtain ⟨q, hq, hqid, hqref⟩ := hold
      rw [hdec.decisions] at hd
      rcases List.mem_append.mp hd with hd | hd
      · exact Or.inl ⟨hd, q, hq, hqid.trans hid, hqref⟩
      · obtain rfl := List.mem_singleton.mp hd
        right
        refine ⟨call, clear, rfl, ?_⟩
        rw [← hqref, eq_of_id hinv.ids hdec.mem hq (hqid.trans hid)]
        exact hdec.decidedBy
    | withdraw w clear old hold hidw hlive hstatus hput =>
      rw [hput] at hd hr
      left
      rcases (mem_put hold (by rfl)).mp hr with rfl | ⟨hr, -⟩
      · exact ⟨hd, old, hold, hid, rfl⟩
      · exact ⟨hd, r, hr, hid, rfl⟩

theorem quorum_of_run {policies : UUID → ApprovalPolicy} {events : List Event} {p : Platform}
    (h : run Platform.step (.init policies) events = some p) {r : ApprovalRequestRow}
    (hr : r ∈ p.store.requests) (happroved : r.status = .approved) : Quorum events p.store r := by
  have hinv : Inv p.store :=
    @run_preserves _ _ Platform.step (fun p => Inv p.store) _ _ _ inv_step (inv_init policies) h
  have hmem : ∀ d ∈ approvalsOf p.store r.id, d ∈ p.store.decisions ∧ r.id = d.request_id :=
    fun d hd => by
      simp only [approvalsOf, List.mem_filter, decide_eq_true_eq] at hd
      exact ⟨hd.1, hd.2.1.symm⟩
  refine ⟨hinv.quorum r hr happroved, ?_, fun d hd => ?_, fun d hd => ?_⟩
  · rw [List.nodup_iff_pairwise_ne, List.pairwise_map]
    refine (hinv.once.sublist List.filter_sublist).imp_of_mem fun hd he hne => hne ?_
    rw [← (hmem _ hd).2, ← (hmem _ he).2]
  · exact hinv.separate d (hmem d hd).1 r hr (hmem d hd).2
  · exact decidedBy_of_run h (hmem d hd).1 hr (hmem d hd).2

/-! ## Finality -/

/-- What any event leaves of a request that is decided or withdrawn: its decisions, and all of it
but for a withdrawal, which only an approved or a withdrawn request allows. -/
structure Final (p : Platform) (r : ApprovalRequestRow) (e : Event) (p' : Platform) : Prop where
  decisions : decisionsOf p'.store r.id = decisionsOf p.store r.id
  row : r ∈ p'.store.requests ∨ ∃ w clear, e = .withdraw w clear ∧ w.request_id = r.id ∧
    p.isDeployed w.workspace_id w.request_id = false ∧
    (r.status = .approved ∨ r.status = .withdrawn) ∧
    { r with status := .withdrawn, withdrawn_reason := some w.reason } ∈ p'.store.requests
  decide : ∀ d clear, e = .decide d clear → d.request_id = r.id → p' = p
  withdraw : ∀ w clear, e = .withdraw w clear → w.request_id = r.id →
    r.status = .rejected ∨ r.status = .changesRequested → p' = p

theorem decide_refused {p p' : Platform} (h : Inv p.store) {r : ApprovalRequestRow}
    (hr : r ∈ p.store.requests) (hclosed : r.status ≠ .review) {d : Decision} {clear : Bool}
    (hid : d.request_id = r.id) (hs : p.step (.decide d clear) = some p') : p' = p := by
  simp only [Platform.step] at hs
  rcases hd : p.decideAndCarry d clear with e | q <;> rw [hd] at hs <;> cases hs
  · rfl
  · obtain ⟨row, hrow⟩ := Platform.decideAndCarry_eq_ok hd
    obtain ⟨old, hold⟩ := decide_eq_ok hrow
    rw [eq_of_id h.ids hold.mem hr (hid.symm.trans hold.id.symm)] at hclosed
    exact absurd hold.open_ hclosed

theorem withdraw_refused {p p' : Platform} (h : Inv p.store) {r : ApprovalRequestRow}
    (hr : r ∈ p.store.requests) (hclosed : r.status = .rejected ∨ r.status = .changesRequested)
    {w : Withdrawal} {clear : Bool} (hid : w.request_id = r.id)
    (hs : p.step (.withdraw w clear) = some p') : p' = p := by
  simp only [Platform.step] at hs
  rcases hw : p.withdrawAndCarry w clear with e | q <;> rw [hw] at hs <;> cases hs
  · rfl
  · obtain ⟨row, hrow⟩ := Platform.withdrawAndCarry_eq_ok hw
    obtain ⟨old, hold, hold', -, hstatus, -⟩ := withdraw_eq_ok hrow
    rw [eq_of_id h.ids hold hr (hid.symm.trans hold'.symm)] at hclosed
    rcases hclosed with hc | hc <;> rw [hc] at hstatus <;> simp at hstatus

theorem final_of_step {p p' : Platform} (h : Inv p.store) {r : ApprovalRequestRow}
    (hr : r ∈ p.store.requests) (hclosed : r.status ≠ .review) {e : Event}
    (hs : p.step e = some p') : Final p r e p' := by
  have hdecide : ∀ d clear, e = .decide d clear → d.request_id = r.id → p' = p := by
    rintro d clear rfl hid
    exact decide_refused h hr hclosed hid hs
  have hwithdraw : ∀ w clear, e = .withdraw w clear → w.request_id = r.id →
      r.status = .rejected ∨ r.status = .changesRequested → p' = p := by
    rintro w clear rfl hid hc
    exact withdraw_refused h hr hc hid hs
  cases step_moves hs with
  | idle hreq hdec ha =>
    exact ⟨by rw [decisionsOf, hdec, decisionsOf], Or.inl (hreq ▸ hr), hdecide, hwithdraw⟩
  | submit row hrow hnew hstatus =>
    refine ⟨by rw [hrow]; rfl, Or.inl ?_, hdecide, hwithdraw⟩
    rw [hrow]
    exact List.mem_append_left _ hr
  | decide d clear old new hd =>
    have hne : old.id ≠ r.id := fun he => by
      rw [← eq_of_id h.ids hr hd.mem he] at hclosed
      exact hclosed hd.open_
    refine ⟨?_, Or.inl ?_, hdecide, hwithdraw⟩
    · rw [decisionsOf, hd.decisions, List.filter_append, List.filter_singleton, decisionsOf]
      simp [hne]
    · rw [hd.store]
      refine (@mem_put { p.store with decisions := p'.store.decisions } old new r hd.mem ?_).mpr
        (Or.inr ⟨hr, hne.symm⟩)
      rw [hd.new_eq]
  | withdraw w clear old hold hid hlive hstatus hput =>
    refine ⟨by rw [hput]; rfl, ?_, hdecide, hwithdraw⟩
    rw [hput]
    by_cases he : r.id = old.id
    · obtain rfl := eq_of_id h.ids hold hr he
      right
      refine ⟨w, clear, rfl, hid.symm, hlive, ?_, (mem_put hold (by rfl)).mpr (Or.inl rfl)⟩
      rcases hstatus with hs' | hs' | hs'
      · exact Or.inr hs'
      · exact absurd hs' hclosed
      · exact Or.inl hs'
    · exact Or.inl ((mem_put hold (by rfl)).mpr (Or.inr ⟨hr, he⟩))

/-- In every reachable state an approved request has its quorum, and a request out of review is
final but for a withdrawal. -/
theorem quorum_and_finality {policies : UUID → ApprovalPolicy} {events : List Event} {p : Platform}
    (h : run Platform.step (.init policies) events = some p) :
    (∀ r ∈ p.store.requests, r.status = .approved → Quorum events p.store r) ∧
      ∀ r ∈ p.store.requests, r.status ≠ .review →
        ∀ e p', p.step e = some p' → Final p r e p' := by
  have hinv : Inv p.store :=
    @run_preserves _ _ Platform.step (fun p => Inv p.store) _ _ _ inv_step (inv_init policies) h
  exact ⟨fun r hr happroved => quorum_of_run h hr happroved,
    fun r hr hclosed e p' hs => final_of_step hinv hr hclosed hs⟩

theorem two_approvers : 1 ≤ 2 ∧ 2 ≤ 5 := by decide

def datasetPolicy : ApprovalPolicy :=
  ⟨[⟨"dataset_version", 2, ["approver"], none, [], two_approvers⟩]⟩

/-- User 8 submits what user 7 created, and users 9 and 10 approve it. -/
def datasetReview : List Event :=
  [.record ⟨1, ⟨"dataset_version", "motor", 1⟩, "dataset_version.created", 7⟩,
    .submit ⟨1, 1, ⟨8, [], []⟩, ⟨"dataset_version", "motor", 1⟩, "new data", none, 0⟩ (.ok ⟨⟩),
    .decide ⟨1, 1, ⟨9, [.approvalDecide], ["approver"]⟩, .approve, none, none⟩ true,
    .decide ⟨1, 1, ⟨10, [.approvalDecide], ["approver"]⟩, .approve, none, none⟩ true]

theorem datasetReview_quorum :
    ∃ p, run Platform.step (.init fun _ => datasetPolicy) datasetReview = some p ∧
      p.store.requests.map (·.status) = [.approved] ∧
      ∀ r ∈ p.store.requests, r.status = .approved → Quorum datasetReview p.store r := by
  have hstatus : (run Platform.step (.init fun _ => datasetPolicy) datasetReview).map
      (fun p => p.store.requests.map (·.status)) = some [.approved] := by decide
  obtain ⟨p, hp, hs⟩ := Option.map_eq_some_iff.mp hstatus
  exact ⟨p, hp, hs, (quorum_and_finality hp).1⟩

/-- An approved request can still be withdrawn: no Deployment makes it live. -/
theorem withdrawn_after_approval :
    ¬ ∀ policies events p, run Platform.step (.init policies) events = some p →
      ∀ r ∈ p.store.requests, r.status = .approved ∨ r.status = .rejected ∨ r.status = .withdrawn →
        ∀ e p', p.step e = some p' →
          ∃ r' ∈ p'.store.requests, r'.id = r.id ∧ r'.status = r.status := by
  intro h
  let withdrawal : Event := .withdraw ⟨1, 1, ⟨9, [.approvalDecide], []⟩, "superseded"⟩ true
  have hstatus : (run Platform.step (.init fun _ => datasetPolicy) datasetReview).map
      (fun p => (p.store.requests.map (·.status), (p.step withdrawal).map
        fun p' => p'.store.requests.map (·.status))) =
      some ([.approved], some [.withdrawn]) := by decide
  obtain ⟨p, hp, hs⟩ := Option.map_eq_some_iff.mp hstatus
  rw [Prod.mk.injEq, Option.map_eq_some_iff] at hs
  obtain ⟨hbefore, p', hp', hafter⟩ := hs
  obtain ⟨r, hr, hrs⟩ : ∃ r ∈ p.store.requests, r.status = .approved :=
    List.mem_map.mp (by rw [hbefore]; exact List.mem_singleton_self _)
  obtain ⟨r', hr', -, hs'⟩ := h _ _ p hp r hr (Or.inl hrs) withdrawal p' hp'
  have hmem : r'.status ∈ p'.store.requests.map (·.status) := List.mem_map_of_mem hr'
  rw [hafter, hs', hrs] at hmem
  simp at hmem

end GiPricing.Governance
