import GiPricing.Deployment.Switch
import Mathlib.Tactic

/-! # A process never moves backwards

Every live reference is a committed Deployment's, and every reconcile pass moves it forwards.
A COMMIT does so where it is in time: no later Deployment is served when it arrives.
-/

namespace GiPricing.Deployment

open Transition

/-! ## The steps of a process -/

section Process

variable {refs : LiveRefs} {since : Key → ℕ} {rows : List DeploymentRow} {k : Key}
  {p : SwitchMember} {m : SwitchMessage}

theorem LiveRefs.set_cases (refs : LiveRefs) (key : Key) (entry : LiveEntry) (k : Key) :
    ((refs.set key entry).live k = refs.live k ∧ (refs.set key entry).writes k = refs.writes k) ∨
      k = key ∧ (refs.set key entry).live k = some entry ∧
        (refs.set key entry).writes k = refs.writes k + 1 := by
  by_cases h : k = key
  · subst h
    exact Or.inr ⟨rfl, by simp [LiveRefs.set], by simp [LiveRefs.set]⟩
  · exact Or.inl ⟨by simp [LiveRefs.set, h], by simp [LiveRefs.set, h]⟩

theorem LiveRefs.reconcile_cases (refs : LiveRefs) (since : Key → ℕ) (rows : List DeploymentRow)
    (k : Key) :
    ((refs.reconcile since rows).live k = refs.live k ∧
        (refs.reconcile since rows).writes k = refs.writes k) ∨
      refs.writes k = since k ∧ since k < (refs.reconcile since rows).writes k ∧
        ∃ r ∈ rows, r.key = k ∧ (refs.reconcile since rows).live k = some r.entry := by
  induction rows generalizing refs with
  | nil => exact Or.inl ⟨rfl, rfl⟩
  | cons r rows ih =>
    rw [LiveRefs.reconcile, List.foldl_cons, ← LiveRefs.reconcile]
    have hr := ih (reconcileRow since refs r)
    unfold reconcileRow at hr ⊢
    split_ifs at hr ⊢ with hw
    · rcases LiveRefs.set_cases refs r.key r.entry k with ⟨hl, hc⟩ | ⟨rfl, hl, hc⟩
      · rw [hl, hc] at hr
        rcases hr with hr | ⟨hs, hlt, q, hq, hk, he⟩
        · exact Or.inl hr
        · exact Or.inr ⟨hs, hlt, q, List.mem_cons_of_mem r hq, hk, he⟩
      · rw [hl, hc] at hr
        rcases hr with ⟨hl', hc'⟩ | ⟨hs, -⟩
        · exact Or.inr ⟨hw, by omega, r, List.mem_cons_self, rfl, hl'⟩
        · omega
    · rcases hr with hr | ⟨hs, hlt, q, hq, hk, he⟩
      · exact Or.inl hr
      · exact Or.inr ⟨hs, hlt, q, List.mem_cons_of_mem r hq, hk, he⟩

theorem SwitchMember.mem_remember {pending : List (UUID × SwitchMessage)} {q : UUID × SwitchMessage}
    (h : q ∈ SwitchMember.remember pending m) : q ∈ pending ∨ q = (m.switch_id, m) := by
  have hq := List.mem_of_mem_drop h
  split_ifs at hq
  · obtain ⟨a, ha, he⟩ := List.mem_map.mp hq
    split_ifs at he with hm
    · exact Or.inr (by rw [← he, hm])
    · exact Or.inl (he ▸ ha)
  · simpa using hq

theorem SwitchMember.handle_cases (p : SwitchMember) (m : SwitchMessage) (hydrated : Bool) :
    ((p.handle m hydrated).2.refs = p.refs ∧
        (m.phase = .commit → p.pending.lookup m.switch_id = none) ∧
        (p.handle m hydrated).2.passes = p.passes ∧
        ∀ q ∈ (p.handle m hydrated).2.pending, q ∈ p.pending ∨ q = (m.switch_id, m)) ∨
      ∃ prepared, m.phase = .commit ∧ p.pending.lookup m.switch_id = some prepared ∧
        (p.handle m hydrated).2.refs = p.refs.set prepared.key prepared.entry ∧
        (p.handle m hydrated).2.passes = p.passes ∧
        ∀ q ∈ (p.handle m hydrated).2.pending, q ∈ p.pending := by
  rcases hm : m.phase with _ | _
  · left
    cases hydrated
    · have he : p.handle m false = (false, p) := by simp [handle, hm]
      rw [he]
      exact ⟨rfl, nofun, rfl, fun q hq => Or.inl hq⟩
    · have he : p.handle m true = (true, { p with pending := remember p.pending m }) := by
        simp [handle, hm]
      rw [he]
      exact ⟨rfl, nofun, rfl, fun q hq => mem_remember hq⟩
  · rcases hl : p.pending.lookup m.switch_id with _ | prepared
    · left
      have he : p.handle m hydrated = (false, p) := by simp [handle, hm, hl]
      rw [he]
      exact ⟨rfl, fun _ => rfl, rfl, fun q hq => Or.inl hq⟩
    · right
      refine ⟨prepared, rfl, rfl, by simp [handle, hm, hl], by simp [handle, hm, hl], ?_⟩
      intro q hq
      simp only [handle, hm, hl] at hq
      exact List.mem_of_mem_filter hq

end Process

/-! ## The invariant -/

/-- A row of the database at a key, with the entry a process takes from it. -/
def Committed (db : List DeploymentRow) (k : Key) (e : LiveEntry) (row : DeploymentRow) : Prop :=
  row ∈ db ∧ row.key = k ∧ row.entry = e

/-- What a pass has read is at least as late as every entry that has stood since it began. -/
structure PassInv (db : List DeploymentRow) (refs : LiveRefs) (pass : Pass) : Prop where
  since_le : ∀ k, pass.since k ≤ refs.writes k
  read : ∀ rows, pass.state = some rows → ∀ r ∈ rows, r ∈ db ∧
    (refs.writes r.key = pass.since r.key → ∀ e, refs.live r.key = some e →
      ∃ row, Committed db r.key e row ∧ row.stamp ≤ r.stamp)

structure MemberInv (s : Switch) (p : SwitchMember) : Prop where
  pending : ∀ q ∈ p.pending, q.2 ∈ s.sent ∧ q.2.switch_id = q.1
  live : ∀ k e, p.refs.live k = some e → ∃ row, Committed s.db k e row
  passes : ∀ pass ∈ p.passes, PassInv s.db p.refs pass

structure Inv (s : Switch) : Prop where
  ids : ∀ r ∈ s.db, ∀ r' ∈ s.db, r.id = r'.id → r = r'
  agree : ∀ m ∈ s.sent, ∀ m' ∈ s.sent,
    m.switch_id = m'.switch_id ∨ m.deployment_id = m'.deployment_id →
      m.key = m'.key ∧ m.entry = m'.entry
  rows : ∀ m ∈ s.sent, ∀ row ∈ s.db, row.id = m.deployment_id → Committed s.db m.key m.entry row
  committed : ∀ m ∈ s.sent, m.phase = .commit → ∃ row, Committed s.db m.key m.entry row
  members : ∀ p, MemberInv s (s.members p)

theorem inv_init : Inv .init where
  ids := by simp [Switch.init]
  agree := by simp [Switch.init]
  rows := by simp [Switch.init]
  committed := by simp [Switch.init]
  members p := ⟨by simp [Switch.init, SwitchMember.empty],
    by simp [Switch.init, SwitchMember.empty, LiveRefs.empty],
    by simp [Switch.init, SwitchMember.empty]⟩

theorem Committed.mono {db db' : List DeploymentRow} {k : Key} {e : LiveEntry}
    {row : DeploymentRow} (h : Committed db k e row) (hd : db ⊆ db') : Committed db' k e row :=
  ⟨hd h.1, h.2⟩

theorem PassInv.mono {db db' : List DeploymentRow} {refs : LiveRefs} {pass : Pass}
    (h : PassInv db refs pass) (hd : db ⊆ db') : PassInv db' refs pass where
  since_le := h.since_le
  read rows hs r hr := by
    obtain ⟨hmem, hle⟩ := h.read rows hs r hr
    refine ⟨hd hmem, fun hw e he => ?_⟩
    obtain ⟨row, hrow, hst⟩ := hle hw e he
    exact ⟨row, hrow.mono hd, hst⟩

/-- A pass outlives a write: an entry written since it began is out of its reach. -/
theorem PassInv.of_writes {db : List DeploymentRow} {refs refs' : LiveRefs} {pass : Pass}
    (h : PassInv db refs pass)
    (hw : ∀ k, refs'.live k = refs.live k ∧ refs'.writes k = refs.writes k ∨
      refs.writes k < refs'.writes k) : PassInv db refs' pass where
  since_le k := by
    have := h.since_le k
    rcases hw k with ⟨-, hk⟩ | hk <;> omega
  read rows hs r hr := by
    obtain ⟨hmem, hle⟩ := h.read rows hs r hr
    refine ⟨hmem, fun heq e he => ?_⟩
    rcases hw r.key with ⟨hl, hk⟩ | hk
    · exact hle (hk ▸ heq) e (hl ▸ he)
    · have := h.since_le r.key
      omega

theorem MemberInv.mono {s s' : Switch} {p : SwitchMember} (h : MemberInv s p)
    (hd : s.db ⊆ s'.db) (hs : s.sent ⊆ s'.sent) : MemberInv s' p where
  pending q hq := ⟨hs (h.pending q hq).1, (h.pending q hq).2⟩
  live k e he := by
    obtain ⟨row, hrow⟩ := h.live k e he
    exact ⟨row, hrow.mono hd⟩
  passes pass hp := (h.passes pass hp).mono hd

theorem Switch.setMember_self (s : Switch) (p : ProcessId) (q : SwitchMember) :
    (s.setMember p q).members p = q := by
  simp [Switch.setMember]

theorem Switch.setMember_of_ne (s : Switch) {p p' : ProcessId} (q : SwitchMember) (h : p' ≠ p) :
    (s.setMember p q).members p' = s.members p' := by
  simp [Switch.setMember, h]

/-- A step that changes one process alone keeps the invariant when that process keeps its own. -/
theorem Inv.setMember {s s' : Switch} {p : ProcessId} {q : SwitchMember} (h : Inv s)
    (hq : MemberInv s q) (hdb : s'.db = s.db) (hsent : s'.sent = s.sent)
    (hm : s'.members = (s.setMember p q).members) : Inv s' where
  ids := hdb ▸ h.ids
  agree := hsent ▸ h.agree
  rows := by rw [hdb, hsent]; exact h.rows
  committed := by rw [hdb, hsent]; exact h.committed
  members p' := by
    have hp : MemberInv s (s'.members p') := by
      rw [hm]
      by_cases hp : p' = p
      · rw [hp, Switch.setMember_self]
        exact hq
      · rw [Switch.setMember_of_ne s q hp]
        exact h.members p'
    exact hp.mono (hdb ▸ List.Subset.refl _) (hsent ▸ List.Subset.refl _)

/-- Committing a row under a new id keeps the invariant. -/
theorem Inv.commit {s : Switch} {row : DeploymentRow} (h : Inv s)
    (hnew : ∀ r ∈ s.db, r.id ≠ row.id)
    (hsent : ∀ m ∈ s.sent, row.id = m.deployment_id → row.key = m.key ∧ row.entry = m.entry) :
    Inv { s with db := row :: s.db } where
  ids r hr r' hr' he := by
    rcases List.mem_cons.mp hr with rfl | h₁ <;> rcases List.mem_cons.mp hr' with rfl | h₂
    · rfl
    · exact absurd he.symm (hnew r' h₂)
    · exact absurd he (hnew r h₁)
    · exact h.ids r h₁ r' h₂ he
  agree := h.agree
  rows m hm r hr he := by
    rcases List.mem_cons.mp hr with rfl | hr
    · exact ⟨List.mem_cons_self, hsent m hm he⟩
    · exact (h.rows m hm r hr he).mono (List.subset_cons_self _ _)
  committed m hm hp := by
    obtain ⟨r, hr⟩ := h.committed m hm hp
    exact ⟨r, hr.mono (List.subset_cons_self _ _)⟩
  members p := (h.members p).mono (List.subset_cons_self _ _) (List.Subset.refl _)

/-- Publishing a message keeps the invariant. -/
theorem Inv.publish {s : Switch} {m : SwitchMessage} (h : Inv s)
    (hagree : ∀ n ∈ s.sent, n.switch_id = m.switch_id ∨ n.deployment_id = m.deployment_id →
      n.key = m.key ∧ n.entry = m.entry)
    (hrows : ∀ row ∈ s.db, row.id = m.deployment_id → Committed s.db m.key m.entry row)
    (hcommit : m.phase = .commit → ∃ row, Committed s.db m.key m.entry row) :
    Inv { s with sent := m :: s.sent } where
  ids := h.ids
  agree n hn n' hn' he := by
    rcases List.mem_cons.mp hn with rfl | h₁ <;> rcases List.mem_cons.mp hn' with rfl | h₂
    · exact ⟨rfl, rfl⟩
    · obtain ⟨hk, hentry⟩ := hagree n' h₂ (he.imp Eq.symm Eq.symm)
      exact ⟨hk.symm, hentry.symm⟩
    · exact hagree n h₁ he
    · exact h.agree n h₁ n' h₂ he
  rows n hn row hrow he := by
    rcases List.mem_cons.mp hn with rfl | hn
    · exact hrows row hrow he
    · exact h.rows n hn row hrow he
  committed n hn hp := by
    rcases List.mem_cons.mp hn with rfl | hn
    · exact hcommit hp
    · exact h.committed n hn hp
  members p := (h.members p).mono (List.Subset.refl _) (List.subset_cons_self _ _)

/-! ## One step -/

/-- What each event but a delivery does, with its guard. -/
inductive Settled (s : Switch) : Switch → Prop
  | prepare (m : SwitchMessage) (hp : m.phase = .prepare)
      (hnew : ∀ n ∈ s.sent, n.switch_id ≠ m.switch_id ∧ n.deployment_id ≠ m.deployment_id)
      (hrow : ∀ row ∈ s.db, row.id ≠ m.deployment_id) : Settled s { s with sent := m :: s.sent }
  | commitRow (m : SwitchMessage) (at_ : ℕ) (request : Option UUID) (hm : m ∈ s.sent)
      (hrow : ∀ row ∈ s.db, row.id ≠ m.deployment_id) :
      Settled s { s with db := m.row at_ request :: s.db }
  | commitUnswitched (row : DeploymentRow) (hsent : ∀ n ∈ s.sent, n.deployment_id ≠ row.id)
      (hrow : ∀ r ∈ s.db, r.id ≠ row.id) : Settled s { s with db := row :: s.db }
  | publishCommit (m : SwitchMessage) (hm : m ∈ s.sent) (row : DeploymentRow) (hrow : row ∈ s.db)
      (hid : row.id = m.deployment_id) : Settled s { s with sent := m.toCommit :: s.sent }
  | beginPass (p : ProcessId) : Settled s (s.setMember p { s.members p with
      passes := (s.members p).passes ++ [⟨(s.members p).refs.writes, none⟩] })
  | readPass (p : ProcessId) (i : ℕ) : Settled s (s.setMember p { s.members p with
      passes := (s.members p).passes.modify i fun pass =>
        { pass with state := some (pass.state.getD (latestDeployments s.db)) } })
  | endPass (p : ProcessId) (i : ℕ) (since : Key → ℕ) (rows : List DeploymentRow)
      (hi : (s.members p).passes[i]? = some ⟨since, some rows⟩) :
      Settled s (s.setMember p { s.members p with
        refs := (s.members p).refs.reconcile since rows
        passes := (s.members p).passes.eraseIdx i })

theorem step_deliver {s s' : Switch} {p : ProcessId} {m : SwitchMessage} {hydrated : Bool}
    (h : s.step (.deliver p m hydrated) = some s') :
    m ∈ s.sent ∧ ∃ acks,
      s' = { s.setMember p ((s.members p).handle m hydrated).2 with acks := acks } := by
  by_cases hg : m ∈ s.sent
  · simp only [Switch.step, if_pos hg, Option.some.injEq] at h
    exact ⟨hg, _, h.symm⟩
  · simp only [Switch.step, if_neg hg] at h
    cases h

theorem step_settled {s s' : Switch} {e : Event} (h : s.step e = some s')
    (he : ∀ p m hydrated, e ≠ .deliver p m hydrated) : Settled s s' := by
  cases e with
  | prepare m =>
    simp only [Switch.step] at h
    split_ifs at h with hg
    cases h
    exact .prepare m hg.1 hg.2.1 hg.2.2
  | commitRow m at_ request receivers acked roster =>
    simp only [Switch.step] at h
    split_ifs at h with hg
    rcases hp : prepareRound receivers acked roster with e | o <;> rw [hp] at h <;> cases h
    exact .commitRow m at_ request hg.1 hg.2.2.1
  | commitUnswitched row =>
    simp only [Switch.step] at h
    split_ifs at h with hg
    cases h
    exact .commitUnswitched row hg.1 hg.2
  | publishCommit m =>
    simp only [Switch.step] at h
    split_ifs at h with hg
    cases h
    obtain ⟨hm, -, row, hrow, hid⟩ := hg
    exact .publishCommit m hm row hrow hid
  | deliver p m hydrated => exact absurd rfl (he p m hydrated)
  | beginPass p =>
    cases h
    exact .beginPass p
  | readPass p i =>
    cases h
    exact .readPass p i
  | endPass p i =>
    simp only [Switch.step] at h
    split at h
    · rename_i since rows hi
      cases h
      exact .endPass p i since rows hi
    · cases h

theorem mem_latestDeployments {db : List DeploymentRow} {r : DeploymentRow} :
    r ∈ latestDeployments db ↔
      r ∈ db ∧ ∀ row ∈ db, row.environment = r.environment → row.stamp ≤ r.stamp := by
  simp [latestDeployments, imp_iff_not_or]

theorem Inv.committed_prepared {s : Switch} (h : Inv s) {p : ProcessId} {m prepared : SwitchMessage}
    (hm : m ∈ s.sent) (hc : m.phase = .commit)
    (hl : (s.members p).pending.lookup m.switch_id = some prepared) :
    ∃ row, Committed s.db prepared.key prepared.entry row := by
  have hmem : (m.switch_id, prepared) ∈ (s.members p).pending := by
    rw [List.lookup_eq_some_iff] at hl
    obtain ⟨l₁, l₂, he, -⟩ := hl
    rw [he]
    simp
  obtain ⟨hsent, hid⟩ := (h.members p).pending _ hmem
  obtain ⟨hk, he⟩ := h.agree m hm prepared hsent (Or.inl hid.symm)
  rw [← hk, ← he]
  exact h.committed m hm hc

theorem inv_deliver {s : Switch} (h : Inv s) (p : ProcessId) {m : SwitchMessage} (b : Bool)
    (hm : m ∈ s.sent) : MemberInv s ((s.members p).handle m b).2 := by
  have hp := h.members p
  rcases SwitchMember.handle_cases (s.members p) m b with
    ⟨hr, -, hpass, hpend⟩ | ⟨prepared, hc, hl, hr, hpass, hpend⟩
  · refine ⟨fun q hq => ?_, by rw [hr]; exact hp.live, by rw [hr, hpass]; exact hp.passes⟩
    rcases hpend q hq with hq | rfl
    · exact hp.pending q hq
    · exact ⟨hm, rfl⟩
  · have hset := LiveRefs.set_cases (s.members p).refs prepared.key prepared.entry
    refine ⟨fun q hq => hp.pending q (hpend q hq), fun k e he => ?_, fun pass hmem => ?_⟩
    · rw [hr] at he
      rcases hset k with ⟨hk, -⟩ | ⟨rfl, hk, -⟩ <;> rw [hk] at he
      · exact hp.live k e he
      · cases he
        exact h.committed_prepared hm hc hl
    · rw [hpass] at hmem
      rw [hr]
      refine (hp.passes pass hmem).of_writes fun k => ?_
      rcases hset k with hk | ⟨-, -, hk⟩
      · exact Or.inl hk
      · right
        omega

theorem inv_readPass {s : Switch} (h : Inv s) (p : ProcessId) {pass : Pass}
    (hinv : PassInv s.db (s.members p).refs pass) : PassInv s.db (s.members p).refs
      { pass with state := some (pass.state.getD (latestDeployments s.db)) } := by
  refine ⟨hinv.since_le, fun rows hrows r hr => ?_⟩
  rcases ho : pass.state with _ | read
  · obtain rfl : latestDeployments s.db = rows := by simpa [ho] using hrows
    obtain ⟨hmem, hlast⟩ := mem_latestDeployments.mp hr
    refine ⟨hmem, fun _ e hl => ?_⟩
    obtain ⟨row, hrow⟩ := (h.members p).live _ e hl
    exact ⟨row, hrow, hlast row hrow.1 (congrArg Prod.snd hrow.2.1)⟩
  · exact hinv.read rows (by simpa [ho] using hrows) r hr

theorem inv_settled {s s' : Switch} (h : Inv s) (hs : Settled s s') : Inv s' := by
  cases hs with
  | prepare m hp hnew hrow =>
    refine h.publish (fun n hn he => ?_) (fun row hr he => absurd he (hrow row hr)) ?_
    · rcases he with he | he
      · exact absurd he (hnew n hn).1
      · exact absurd he (hnew n hn).2
    · intro hc
      rw [hp] at hc
      cases hc
  | commitRow m at_ request hm hrow =>
    exact h.commit hrow fun n hn he => h.agree m hm n hn (Or.inr he)
  | commitUnswitched row hsent hrow =>
    exact h.commit hrow fun n hn he => absurd he.symm (hsent n hn)
  | publishCommit m hm row hrow hid =>
    exact h.publish (fun n hn he => h.agree n hn m hm he) (fun r hr he => h.rows m hm r hr he)
      fun _ => ⟨row, h.rows m hm row hrow hid⟩
  | beginPass p =>
    refine h.setMember ?_ rfl rfl rfl
    refine ⟨(h.members p).pending, (h.members p).live, fun pass hpass => ?_⟩
    rcases List.mem_append.mp hpass with hpass | hpass
    · exact (h.members p).passes pass hpass
    · obtain rfl := List.mem_singleton.mp hpass
      exact ⟨fun _ => le_rfl, nofun⟩
  | readPass p i =>
    refine h.setMember ?_ rfl rfl rfl
    refine ⟨(h.members p).pending, (h.members p).live, fun pass hpass => ?_⟩
    obtain ⟨j, hj⟩ := List.mem_iff_getElem?.mp hpass
    rw [List.getElem?_modify] at hj
    obtain ⟨old, hold, he⟩ := Option.map_eq_some_iff.mp hj
    have hinv := (h.members p).passes old (List.mem_iff_getElem?.mpr ⟨j, hold⟩)
    split_ifs at he
    · rw [← he]
      exact inv_readPass h p hinv
    · rw [← he]
      exact hinv
  | endPass p i since rows hi =>
    have hcases := (s.members p).refs.reconcile_cases since rows
    refine h.setMember ?_ rfl rfl rfl
    refine ⟨(h.members p).pending, fun k e he => ?_, fun pass hpass => ?_⟩
    · rcases hcases k with ⟨hl, -⟩ | ⟨-, -, r, hr, hk, hl⟩
      · exact (h.members p).live k e (hl ▸ he)
      · have hread := (h.members p).passes _ (List.mem_iff_getElem?.mpr ⟨i, hi⟩)
        obtain ⟨hmem, -⟩ := hread.read rows rfl r hr
        exact ⟨r, hmem, hk, by simpa [hl] using he⟩
    · refine ((h.members p).passes pass (List.mem_of_mem_eraseIdx hpass)).of_writes fun k => ?_
      rcases hcases k with hk | ⟨hw, hlt, -⟩
      · exact Or.inl hk
      · exact Or.inr (hw.trans_lt hlt)

theorem inv_step (s : Switch) (e : Event) (s' : Switch) (h : Inv s) (hs : s.step e = some s') :
    Inv s' := by
  by_cases he : ∃ p m b, e = .deliver p m b
  · obtain ⟨p, m, b, rfl⟩ := he
    obtain ⟨hm, acks, rfl⟩ := step_deliver hs
    exact h.setMember (inv_deliver h p b hm) rfl rfl rfl
  · push Not at he
    exact inv_settled h (step_settled hs he)

/-! ## Forwards -/

/-- Every entry served after the step is a committed Deployment's, and is later than the one it
replaces. -/
def Forward (s s' : Switch) : Prop :=
  ∀ p k e', (s'.members p).refs.live k = some e' → ∃ row', Committed s'.db k e' row' ∧
    ∀ e, (s.members p).refs.live k = some e → e ≠ e' →
      ∃ row, Committed s.db k e row ∧ row.stamp < row'.stamp

/-- No COMMIT reaches a process that prepared it and by now serves a later Deployment. -/
def Timely (s : Switch) : Event → Prop
  | .deliver p m _ => m.phase = .commit → ∀ prepared,
      (s.members p).pending.lookup m.switch_id = some prepared →
      ∀ e, (s.members p).refs.live prepared.key = some e →
        ∀ row ∈ s.db, row.id = e.deployment_id →
          ∀ row' ∈ s.db, row'.id = prepared.deployment_id → row.stamp ≤ row'.stamp
  | _ => True

theorem Inv.eq_of_id {s : Switch} (h : Inv s) {k k' : Key} {e e' : LiveEntry}
    {row row' : DeploymentRow} (hr : Committed s.db k e row) (hr' : Committed s.db k' e' row')
    (hid : e.deployment_id = e'.deployment_id) : row = row' := by
  refine h.ids row hr.1 row' hr'.1 ?_
  have h₁ : row.id = e.deployment_id := congrArg LiveEntry.deployment_id hr.2.2
  have h₂ : row'.id = e'.deployment_id := congrArg LiveEntry.deployment_id hr'.2.2
  rw [h₁, h₂, hid]

theorem Inv.stamp_lt {s : Switch} (h : Inv s) {k k' : Key} {e e' : LiveEntry}
    {row row' : DeploymentRow} (hr : Committed s.db k e row) (hr' : Committed s.db k' e' row')
    (hne : e ≠ e') (hle : row.stamp ≤ row'.stamp) : row.stamp < row'.stamp := by
  refine lt_of_le_of_ne hle fun he => hne ?_
  have hid : row.id = row'.id := congrArg (fun x => (ofLex x).2) he
  rw [← hr.2.2, ← hr'.2.2, h.ids row hr.1 row' hr'.1 hid]

theorem forward_of_changed {s s' : Switch} (h' : Inv s')
    (hl : ∀ p k e e', (s'.members p).refs.live k = some e' → (s.members p).refs.live k = some e →
      e ≠ e' → ∃ row row', Committed s.db k e row ∧ Committed s'.db k e' row' ∧
        row.stamp < row'.stamp) : Forward s s' := by
  intro p k e' he'
  obtain ⟨row', hrow'⟩ := (h'.members p).live k e' he'
  refine ⟨row', hrow', fun e he hne => ?_⟩
  obtain ⟨row, row'', hr, hr', hlt⟩ := hl p k e e' he' he hne
  rw [h'.eq_of_id hrow' hr' rfl]
  exact ⟨row, hr, hlt⟩

theorem live_setMember {s : Switch} {p p' : ProcessId} {q : SwitchMember} {k : Key} {e e' : LiveEntry}
    (he' : ((s.setMember p q).members p').refs.live k = some e')
    (he : (s.members p').refs.live k = some e) (hne : e ≠ e') :
    p' = p ∧ q.refs.live k = some e' := by
  by_cases hp : p' = p
  · subst hp
    rw [s.setMember_self] at he'
    exact ⟨rfl, he'⟩
  · rw [s.setMember_of_ne q hp, he] at he'
    exact absurd (Option.some.inj he') hne

/-- Every event but a delivery moves every process forwards: a pass reads no earlier Deployment
than one that has stood since it began. -/
theorem forward_settled {s s' : Switch} (h : Inv s) (hs : Settled s s') : Forward s s' := by
  refine forward_of_changed (inv_settled h hs) fun p k e e' he' he hne => ?_
  cases hs with
  | endPass q i since rows hi =>
    obtain ⟨rfl, hlive⟩ := live_setMember he' he hne
    rcases (s.members p).refs.reconcile_cases since rows k with
      ⟨hl, -⟩ | ⟨hw, -, r, hr, hk, hl⟩
    · rw [hl, he] at hlive
      exact absurd (Option.some.inj hlive) hne
    · have hread := (h.members p).passes _ (List.mem_iff_getElem?.mpr ⟨i, hi⟩)
      obtain ⟨hmem, hle⟩ := hread.read rows rfl r hr
      subst hk
      obtain ⟨row, hrow, hst⟩ := hle hw e he
      rw [hl] at hlive
      have hr' : Committed s.db r.key e' r := ⟨hmem, rfl, Option.some.inj hlive⟩
      exact ⟨row, r, hrow, hr', h.stamp_lt hrow hr' hne hst⟩
  | beginPass q =>
    obtain ⟨rfl, hlive⟩ := live_setMember he' he hne
    exact absurd (Option.some.inj (he.symm.trans hlive)) hne
  | readPass q i =>
    obtain ⟨rfl, hlive⟩ := live_setMember he' he hne
    exact absurd (Option.some.inj (he.symm.trans hlive)) hne
  | _ => exact absurd (Option.some.inj (he.symm.trans he')) hne

theorem timely_settled {s : Switch} {e : Event} (he : ∀ p m b, e ≠ .deliver p m b) :
    Timely s e := by
  cases e with
  | deliver p m b => exact absurd rfl (he p m b)
  | _ => trivial

/-- A delivery is forwards exactly when it is timely. -/
theorem forward_deliver_iff {s : Switch} (h : Inv s) {p : ProcessId} {m : SwitchMessage} (b : Bool)
    {acks : List (UUID × Phase × ProcessId)} (hm : m ∈ s.sent)
    (h' : Inv { s.setMember p ((s.members p).handle m b).2 with acks := acks }) :
    Forward s { s.setMember p ((s.members p).handle m b).2 with acks := acks } ↔
      Timely s (.deliver p m b) := by
  rcases SwitchMember.handle_cases (s.members p) m b with
    ⟨hr, hnone, -⟩ | ⟨prepared, hc, hl, hr, -, -⟩
  · refine iff_of_true (forward_of_changed h' fun p' k e e' he' he hne => ?_) ?_
    · obtain ⟨rfl, hlive⟩ := live_setMember he' he hne
      rw [hr, he] at hlive
      exact absurd (Option.some.inj hlive) hne
    · intro hc prepared hl
      rw [hnone hc] at hl
      cases hl
  · obtain ⟨row', hrow'⟩ := h.committed_prepared hm hc hl
    have hset := LiveRefs.set_cases (s.members p).refs prepared.key prepared.entry
    constructor
    · intro hf _ prepared' hl' e he row hrow hid row'' hrow'' hid''
      obtain rfl : prepared = prepared' := Option.some.inj (hl.symm.trans hl')
      obtain ⟨old, hold⟩ := (h.members p).live _ e he
      have hlive : ((s.setMember p ((s.members p).handle m b).2).members p).refs.live prepared.key
          = some prepared.entry := by
        rw [s.setMember_self, hr]
        simp [LiveRefs.set]
      have hrow₁ : row = old :=
        h.ids row hrow old hold.1 (hid.trans (congrArg LiveEntry.deployment_id hold.2.2).symm)
      have hrow₂ : row'' = row' := h.ids row'' hrow'' row' hrow'.1
        (hid''.trans (congrArg LiveEntry.deployment_id hrow'.2.2).symm)
      rw [hrow₁, hrow₂]
      by_cases hne : e = prepared.entry
      · rw [h.eq_of_id hold hrow' (congrArg LiveEntry.deployment_id hne)]
      · obtain ⟨new, hnew, hlt⟩ := hf p prepared.key prepared.entry hlive
        obtain ⟨old', hold', hst⟩ := hlt e he hne
        rw [h.eq_of_id hold hold' rfl, h.eq_of_id hrow' hnew rfl]
        exact hst.le
    · intro ht
      refine forward_of_changed h' fun p' k e e' he' he hne => ?_
      obtain ⟨rfl, hlive⟩ := live_setMember he' he hne
      rw [hr] at hlive
      rcases hset k with ⟨hk, -⟩ | ⟨rfl, hk, -⟩ <;> rw [hk] at hlive
      · exact absurd (Option.some.inj (he.symm.trans hlive)) hne
      · obtain rfl := Option.some.inj hlive
        obtain ⟨row, hrow⟩ := (h.members p').live _ e he
        refine ⟨row, row', hrow, hrow', h.stamp_lt hrow hrow' hne ?_⟩
        exact ht hc prepared hl e he row hrow.1 (congrArg LiveEntry.deployment_id hrow.2.2) row'
          hrow'.1 (congrArg LiveEntry.deployment_id hrow'.2.2)

theorem forward_iff_timely (s : Switch) (e : Event) (s' : Switch) (h : Inv s)
    (hs : s.step e = some s') : Forward s s' ↔ Timely s e := by
  by_cases he : ∃ p m b, e = .deliver p m b
  · obtain ⟨p, m, b, rfl⟩ := he
    have h' := inv_step s _ s' h hs
    obtain ⟨hm, acks, rfl⟩ := step_deliver hs
    exact forward_deliver_iff h b hm h'
  · push Not at he
    exact iff_of_true (forward_settled h (step_settled hs he)) (timely_settled he)

/-- In every run, each process serves committed Deployments only and moves forwards at every step
exactly when no COMMIT of the run comes too late. -/
theorem serves_forward_iff (events : List Event) :
    Always Switch.step (fun s _ s' => Forward s s') .init events ↔
      Always Switch.step (fun s e _ => Timely s e) .init events :=
  always_congr (fun s e s' h hs _ => inv_step s e s' h hs) forward_iff_timely inv_init events

/-! ## A late COMMIT -/

def switchMessage (n : UUID) : SwitchMessage :=
  ⟨n, .prepare, 1, "prod", n, "rating_version:motor@1", "sha256:0"⟩

/-- The process reconciles with the second Deployment before the COMMIT of the first arrives. -/
def lateCommit : List Event :=
  [.prepare (switchMessage 1), .deliver "a" (switchMessage 1) true,
    .commitRow (switchMessage 1) 10 none 1 {"a"} {"a"}, .commitUnswitched
      ⟨2, 1, "prod", "rating_version:motor@2", "sha256:1", 20, none⟩,
    .beginPass "a", .readPass "a" 0, .endPass "a" 0, .publishCommit (switchMessage 1)]

/-- A COMMIT delayed past a reconcile pass moves the process back. -/
theorem lateCommit_backwards :
    ¬ ∀ events, Always Switch.step (fun s _ s' => Forward s s') .init events := by
  intro h
  obtain ⟨t, ht⟩ := Option.isSome_iff_exists.mp
    (show (run Switch.step .init lateCommit).isSome by decide)
  obtain ⟨t', ht'⟩ := Option.isSome_iff_exists.mp (show ((run Switch.step .init lateCommit).bind
    fun t => t.step (.deliver "a" (switchMessage 1).toCommit true)).isSome by decide)
  have hstep : t.step (.deliver "a" (switchMessage 1).toCommit true) = some t' := by
    rwa [ht] at ht'
  have hf := (h (lateCommit ++ [.deliver "a" (switchMessage 1).toCommit true])).last ht hstep
  have hinv : Inv t := run_preserves inv_step inv_init ht
  have hview : (run Switch.step .init lateCommit).map (fun t =>
      ((t.members "a").pending.lookup 1, (t.members "a").refs.live (1, "prod"), t.db)) =
      some (some (switchMessage 1), some ⟨2, "rating_version:motor@2", "sha256:1"⟩,
        [⟨2, 1, "prod", "rating_version:motor@2", "sha256:1", 20, none⟩,
          (switchMessage 1).row 10 none]) := by decide
  simp only [ht, Option.map_some, Option.some.injEq, Prod.mk.injEq] at hview
  obtain ⟨hpending, hlive, hdb⟩ := hview
  have hle := (forward_iff_timely t _ t' hinv hstep).mp hf rfl _ hpending _ hlive
    _ (by rw [hdb]; exact List.mem_cons_self) rfl
    _ (by rw [hdb]; exact List.mem_cons_of_mem _ List.mem_cons_self) rfl
  exact absurd hle (by decide)

end GiPricing.Deployment
