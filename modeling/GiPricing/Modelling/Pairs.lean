import GiPricing.Modelling.Intervals

/-! # A pair of bounds through approval

A model has one bound a side, and its prediction answers with the first reason that applies. An
approval of a bound leaves the model and the other bound alone exactly where neither is an earlier
version that is already approved.
-/

namespace GiPricing.Modelling

open Failure Governance Transition

variable {specHash : ModelSpec → String} {alpha : ModelSpec → ℚ}
  {objectives : UUID → String → Option ObjectiveParams}

/-! ## What a step does to the rows -/

section Rows

variable {s s' t : Models} {e : ModelEvent} {b c : ModelRow}

theorem length_put (s : Models) (row : ModelRow) : (s.put row).models.length = s.models.length :=
  List.length_map _

theorem committed_length {r : Except ModelRefusal Models}
    (hr : ∀ t, r = .ok t → t.models.length = s.models.length) :
    (s.committed r).models.length = s.models.length := by
  cases r with
  | ok t => exact hr t rfl
  | error refusal => rfl

theorem carry_length {request : ApprovalRequestRow} {g : Store}
    (h : Models.applyApprovalDecision { s with approvals := g } request = .ok t) :
    t.models.length = s.models.length := by
  cases carried_of_ok h with
  | none => rfl
  | moved row target hrow ht htarget hvalid hflags => exact List.length_map _

/-- Only a reservation adds a row. -/
theorem length_step (he : ∀ c, e ≠ .reserve c) (hs : s.step specHash e = some s') :
    s'.models.length = s.models.length := by
  cases e with
  | reserve c => exact absurd rfl (he c)
  | recordFit c =>
    cases hs
    refine committed_length fun t ht => ?_
    simp only [Models.recordFit, bind_eq_ok, pure_eq_ok] at ht
    obtain ⟨row, -, -, -, rfl⟩ := ht
    exact length_put s _
  | submitForReview c =>
    cases hs
    refine committed_length fun t ht => ?_
    simp only [Models.submitForReview, bind_eq_ok, pure_eq_ok] at ht
    obtain ⟨-, -, row, -, -, -, -, -, ⟨g, request⟩, -, rfl⟩ := ht
    exact length_put { s with approvals := g } _
  | archive c =>
    cases hs
    refine committed_length fun t ht => ?_
    simp only [Models.archive, bind_eq_ok, pure_eq_ok] at ht
    obtain ⟨-, -, row, -, -, -, rfl⟩ := ht
    exact length_put s _
  | decide d =>
    cases hs
    refine committed_length fun t ht => ?_
    obtain ⟨⟨g, request⟩, -, hcarry⟩ := bind_eq_ok.mp ht
    exact carry_length hcarry
  | withdraw w live =>
    cases hs
    refine committed_length fun t ht => ?_
    obtain ⟨⟨g, request⟩, -, hcarry⟩ := bind_eq_ok.mp ht
    exact carry_length hcarry
  | submit c resolve =>
    cases hs
    refine committed_length fun t ht => ?_
    obtain ⟨q, -, rfl⟩ := map_eq_ok.mp ht
    rfl
  | setPolicy workspace_id policy =>
    cases hs
    rfl
  | record e =>
    cases hs
    rfl
  | setDataset id status =>
    cases hs
    rfl
  | setObjective workspace_id ref status =>
    cases hs
    rfl

theorem reserve_models {c : Models.Reserve} {row : ModelRow} {fit : Bool}
    (h : Models.reserve specHash s c = .ok (t, row, fit)) : c.checks = .ok ⟨⟩ ∧
      (t.models = s.models ∨
        ∃ slug, t.models = s.models ++ [Models.newVersion specHash s c slug]) := by
  simp only [Models.reserve, bind_eq_ok, ensure_eq_ok] at h
  obtain ⟨-, -, source, -, u, hchecks, h⟩ := h
  refine ⟨mapError_eq_ok.mp hchecks, ?_⟩
  split at h
  · cases h
    exact Or.inl rfl
  · simp only [bind_eq_ok, pure_eq_ok, Prod.mk.injEq] at h
    obtain ⟨-, -, rfl, -⟩ := h
    exact Or.inr ⟨_, rfl⟩

theorem step_of_bounded (hs : s.stepBounded specHash alpha objectives e = some s') :
    (∃ c, e = .reserve c ∧ s.step specHash (.reserve { c with checks := do
        (s.refuseMismatchedIntervalModel alpha objectives c.workspace_id c.spec).mapError (·.code)
        c.checks }) = some s') ∨ (∀ c, e ≠ .reserve c) ∧ s.step specHash e = some s' := by
  cases e with
  | reserve c =>
    simp only [Models.stepBounded] at hs
    split_ifs at hs with htyped
    exact Or.inl ⟨c, rfl, hs⟩
  | _ => exact Or.inr ⟨nofun, hs⟩

theorem inv_stepBounded (h : Inv s) (hs : s.stepBounded specHash alpha objectives e = some s') :
    Inv s' := by
  rcases step_of_bounded hs with ⟨c, -, hs⟩ | ⟨-, hs⟩
  · obtain ⟨move, new, hsteps⟩ := steps_of_step h hs
    exact hsteps.inv h
  · obtain ⟨move, new, hsteps⟩ := steps_of_step h hs
    exact hsteps.inv h

end Rows

/-! ## One bound a side -/

section Sides

variable {s s' : Models} {e : ModelEvent} {m : ModelRow}

/-- A model has at most one bound below the median, and one above. -/
def OnePerSide (alpha : ModelSpec → ℚ) (s : Models) : Prop :=
  ∀ b ∈ s.models, ∀ b' ∈ s.models, b.workspace_id = b'.workspace_id → b.spec.interval_for.isSome →
    b.spec.interval_for = b'.spec.interval_for → (IsLower alpha b.spec ↔ IsLower alpha b'.spec) →
    b = b'

theorem mem_loadIntervalModels {w id : UUID} : m ∈ s.loadIntervalModels alpha w id ↔
    m ∈ s.models ∧ m.workspace_id = w ∧ m.spec.interval_for = some id := by
  rw [Models.loadIntervalModels, List.mem_insertionSort, List.mem_filter, decide_eq_true_eq]

theorem side_free {w : UUID} {spec : ModelSpec} {u : PUnit}
    (h : s.refuseMismatchedIntervalModel alpha objectives w spec = .ok u)
    (hspec : spec.interval_for.isSome) (hm : m ∈ s.models) (hw : m.workspace_id = w)
    (hfor : m.spec.interval_for = spec.interval_for) :
    ¬ (IsLower alpha m.spec ↔ IsLower alpha spec) := by
  obtain ⟨id, hid⟩ := Option.isSome_iff_exists.mp hspec
  simp only [Models.refuseMismatchedIntervalModel, hid, bind_eq_ok, require_eq_ok] at h
  obtain ⟨central, hcentral, -, -, -, -, h⟩ := h
  split at h
  · cases h
  · rename_i hnone
    have hmem : m ∈ s.loadIntervalModels alpha w central.id := by
      rw [mem_loadIntervalModels, (Models.byId_eq_some hcentral).2]
      exact ⟨hm, hw, hfor.trans hid⟩
    have hfree := List.find?_eq_none.mp hnone m hmem
    rwa [decide_eq_true_eq] at hfree

theorem onePerSide_step (h : Inv s) (hone : OnePerSide alpha s)
    (hs : s.stepBounded specHash alpha objectives e = some s') : OnePerSide alpha s' := by
  rcases step_of_bounded hs with ⟨c, -, hs⟩ | ⟨hne, hs⟩
  · simp only [Models.step] at hs
    split_ifs at hs with hnew
    obtain rfl := Option.some.inj hs
    rcases hres : Models.reserve specHash s { c with checks := do
        (s.refuseMismatchedIntervalModel alpha objectives c.workspace_id c.spec).mapError (·.code)
        c.checks } with refusal | ⟨t, row, fit⟩
    · exact hone
    · obtain ⟨hchecks, hmodels⟩ := reserve_models hres
      obtain ⟨u, hpair, -⟩ := bind_eq_ok.mp hchecks
      have hpair := mapError_eq_ok.mp hpair
      change OnePerSide alpha t
      rcases hmodels with heq | ⟨slug, heq⟩
      · rw [OnePerSide, heq]
        exact hone
      · -- the new row is on a side that the check has found free
        have hfree : ∀ m ∈ s.models, m.workspace_id = c.workspace_id →
            c.spec.interval_for.isSome → m.spec.interval_for = c.spec.interval_for →
            ¬ (IsLower alpha m.spec ↔ IsLower alpha c.spec) :=
          fun m hm hw hsome hfor => side_free hpair hsome hm hw hfor
        intro b hb b' hb' hw hsome hfor hside
        rw [heq, List.mem_append, List.mem_singleton] at hb hb'
        rcases hb with hb | rfl <;> rcases hb' with hb' | rfl
        · exact hone b hb b' hb' hw hsome hfor hside
        · exact absurd hside (hfree b hb hw (hfor ▸ hsome) hfor)
        · exact absurd hside.symm (hfree b' hb' hw.symm hsome hfor.symm)
        · rfl
  · obtain ⟨move, new, hsteps⟩ := steps_of_step h hs
    have hnil : new = [] := by
      have hlen := length_step hne hs
      rw [hsteps.models, List.length_append, List.length_map] at hlen
      exact List.length_eq_zero_iff.mp (by omega)
    intro b hb b' hb' hw hsome hfor hside
    rw [hsteps.mem, hnil] at hb hb'
    obtain ⟨m, hm, rfl⟩ := hb.resolve_right List.not_mem_nil
    obtain ⟨m', hm', rfl⟩ := hb'.resolve_right List.not_mem_nil
    obtain ⟨-, hmw, -, -, hms, -⟩ := (hsteps.rows m hm).keeps
    obtain ⟨-, hmw', -, -, hms', -⟩ := (hsteps.rows m' hm').keeps
    rw [hmw, hmw'] at hw
    rw [hms] at hsome hfor hside
    rw [hms'] at hfor hside
    rw [hone m hm m' hm' hw hsome hfor hside]

end Sides

/-! ## Approvals of bounds -/

section Approvals

variable {s s' : Models} {e : ModelEvent} {d : Decision} {b r : ModelRow}

/-- The model that a bound is for, or one of its bounds. -/
def OfPair (b r : ModelRow) : Prop :=
  r.workspace_id = b.workspace_id ∧
    (b.spec.interval_for = some r.id ∨ b.spec.interval_for = r.spec.interval_for)

/-- The approval of a bound leaves the others of its pair as they are. -/
def KeepsPair (s : Models) (e : ModelEvent) (s' : Models) : Prop :=
  ∀ d b, e = .decide d → Approves s d b → b.IsBound → ∀ r ∈ s.models, OfPair b r → r.id ≠ b.id →
    ∃ r' ∈ s'.models, r'.id = r.id ∧ r'.status = r.status

/-- A bound is approved while no earlier version of its pair is. -/
def PairInOrder (s : Models) (e : ModelEvent) : Prop :=
  ∀ d b, e = .decide d → Approves s d b → b.IsBound → ∀ r ∈ s.models, OfPair b r → r.SameFamily b →
    r.status = .approved → b.version < r.version

theorem Approves.mem (h : Approves s d b) : b ∈ s.models := by
  obtain ⟨g, request, -, -, -, hrow, -⟩ := h
  exact (Models.model?_eq_some hrow).1

theorem step_of_approves (h : Approves s d b) (hs : s.step specHash (.decide d) = some s') :
    s'.models = s.models.map (Models.moved b .approved) := by
  obtain ⟨g, request, hdec, hstatus, htype, hrow, hreview, hflags⟩ := h
  have hcarry := @apply_approve s request g b hstatus htype hrow hreview hflags
  have hok : s.decideAndCarry d = .ok _ :=
    bind_eq_ok.mpr ⟨(g, request), by rw [hdec]; rfl, hcarry⟩
  simp only [Models.step, hok, Models.committed, Option.some.injEq] at hs
  rw [← hs]

theorem keepsPair_iff (hi : Inv s) (hs : s.stepBounded specHash alpha objectives e = some s') :
    KeepsPair s e s' ↔ PairInOrder s e := by
  have hstep : ∀ d, e = .decide d → s.step specHash (.decide d) = some s' := by
    rintro d rfl
    exact hs
  constructor
  · intro hkeep d b he ha hb r hr hpair hfam hst
    have hne : r.id ≠ b.id := by
      intro hid
      rw [List.inj_on_of_nodup_map hi.ids hr ha.mem hid, ha.review] at hst
      cases hst
    by_contra hlate
    have hlt : r.version < b.version := by
      refine lt_of_le_of_ne (not_lt.mp hlate) fun hver => hne ?_
      rw [hi.eq_of_version hr ha.mem hfam hver]
    obtain ⟨r', hr', hid, hst'⟩ := hkeep d b he ha hb r hr hpair hne
    rw [step_of_approves ha (hstep d he)] at hr'
    obtain ⟨q, hq, rfl⟩ := List.mem_map.mp hr'
    have hq' : (Models.moved b .approved q).id = q.id := by
      unfold Models.moved
      split_ifs <;> rfl
    obtain rfl := List.inj_on_of_nodup_map hi.ids hq hr (hq'.symm.trans hid)
    -- an earlier approved version of the family is superseded
    rw [Models.moved, if_neg hne, if_pos ⟨rfl, hfam, hlt, hst⟩, hst] at hst'
    cases hst'
  · intro horder d b he ha hb r hr hpair hne
    refine ⟨r, ?_, rfl, rfl⟩
    rw [step_of_approves ha (hstep d he)]
    refine List.mem_map.mpr ⟨r, hr, ?_⟩
    rw [Models.moved, if_neg hne, if_neg]
    rintro ⟨-, hfam, hlt, hst⟩
    exact absurd (horder d b he ha hb r hr hpair hfam hst) hlt.not_gt

end Approvals

/-! ## The prediction -/

section Prediction

variable {height : ℕ} {score : ModelRow → Except String (Fin height → ℚ)} {s : Models}
  {c l u m : ModelRow}

/-- A fitted bound of the model. -/
def FittedBound (s : Models) (c b : ModelRow) : Prop :=
  b ∈ s.models ∧ b.workspace_id = c.workspace_id ∧ b.spec.interval_for = some c.id ∧
    b.fit_result.isSome

/-- A fitted bound on each side. -/
def Pair (alpha : ModelSpec → ℚ) (s : Models) (c l u : ModelRow) : Prop :=
  FittedBound s c l ∧ IsLower alpha l.spec ∧ FittedBound s c u ∧ ¬ IsLower alpha u.spec

def Scoreable (c : ModelRow) : Prop := c.status ∈ scoreableModelStatuses ∧ c.fit_result.isSome

/-- What the prediction of a model answers: the first of its reasons that applies. -/
structure Answers (alpha : ModelSpec → ℚ) (score : ModelRow → Except String (Fin height → ℚ))
    (s : Models) (c : ModelRow) : Prop where
  unfitted : ¬ Scoreable c → s.predict alpha score c.workspace_id c.id = .error .notFitted
  unpaired : ∀ expected, Scoreable c → score c = .ok expected → (¬ ∃ l u, Pair alpha s c l u) →
    s.predict alpha score c.workspace_id c.id =
      .ok ⟨expected, none, none, .unavailable .noIntervalModelsFitted⟩
  stale : ∀ expected l u, Scoreable c → score c = .ok expected → Pair alpha s c l u →
    c.status = .superseded → s.predict alpha score c.workspace_id c.id =
      .ok ⟨expected, none, none, .unavailable .intervalModelsStale⟩
  notApproved : ∀ expected l u, Scoreable c → score c = .ok expected → Pair alpha s c l u →
    c.status = .approved → ¬ (l.status = .approved ∧ u.status = .approved) →
      s.predict alpha score c.workspace_id c.id =
        .ok ⟨expected, none, none, .unavailable .intervalModelsNotApproved⟩
  crossing : ∀ expected l u low high, Scoreable c → score c = .ok expected → Pair alpha s c l u →
    c.status ≠ .superseded → (c.status = .approved → l.status = .approved ∧ u.status = .approved) →
      score l = .ok low → score u = .ok high → rowsCrossing low high ≠ 0 →
        s.predict alpha score c.workspace_id c.id = .error (.crossing (rowsCrossing low high))
  quoted : ∀ expected l u low high, Scoreable c → score c = .ok expected → Pair alpha s c l u →
    c.status ≠ .superseded → (c.status = .approved → l.status = .approved ∧ u.status = .approved) →
      score l = .ok low → score u = .ok high → rowsCrossing low high = 0 →
        alpha l.spec < alpha u.spec ∧ s.predict alpha score c.workspace_id c.id =
          .ok ⟨expected, some low, some high,
            .quantilePairInterval (alpha u.spec - alpha l.spec)
              ⟨l.id, u.id, alpha l.spec, alpha u.spec⟩⟩

theorem eq_singleton {α : Type*} {l : List α} {a : α} (hl : l.Nodup) (h : ∀ x, x ∈ l ↔ x = a) :
    l = [a] := by
  rw [← List.perm_singleton]
  apply (List.perm_ext_iff_of_nodup hl (List.nodup_singleton a)).mpr
  intro x
  rw [h, List.mem_singleton]

def fittedBounds (alpha : ModelSpec → ℚ) (s : Models) (c : ModelRow) : List ModelRow :=
  (s.loadIntervalModels alpha c.workspace_id c.id).filter (·.fit_result.isSome)

theorem mem_fittedBounds : m ∈ fittedBounds alpha s c ↔ FittedBound s c m := by
  rw [fittedBounds, List.mem_filter, mem_loadIntervalModels, FittedBound, and_assoc, and_assoc]

theorem nodup_fittedBounds (h : Inv s) : (fittedBounds alpha s c).Nodup := by
  apply List.Nodup.filter
  rw [Models.loadIntervalModels, (List.perm_insertionSort _ _).nodup_iff]
  exact h.ids.of_map.filter _

theorem OnePerSide.lower_eq (h : Inv s) (hone : OnePerSide alpha s) (hl : FittedBound s c l)
    (hside : IsLower alpha l.spec) :
    (fittedBounds alpha s c).filter (IsLower alpha ·.spec) = [l] := by
  apply eq_singleton ((nodup_fittedBounds h).filter _)
  intro m
  rw [List.mem_filter, mem_fittedBounds, decide_eq_true_eq]
  constructor
  · rintro ⟨⟨hm, hw, hfor, -⟩, hm'⟩
    exact hone m hm l hl.1 (hw.trans hl.2.1.symm) (by rw [hfor]; rfl) (hfor.trans hl.2.2.1.symm)
      (iff_of_true hm' hside)
  · rintro rfl
    exact ⟨hl, hside⟩

theorem OnePerSide.upper_eq (h : Inv s) (hone : OnePerSide alpha s) (hu : FittedBound s c u)
    (hside : ¬ IsLower alpha u.spec) :
    (fittedBounds alpha s c).filter (¬ IsLower alpha ·.spec) = [u] := by
  apply eq_singleton ((nodup_fittedBounds h).filter _)
  intro m
  rw [List.mem_filter, mem_fittedBounds, decide_eq_true_eq]
  constructor
  · rintro ⟨⟨hm, hw, hfor, -⟩, hm'⟩
    exact hone m hm u hu.1 (hw.trans hu.2.1.symm) (by rw [hfor]; rfl) (hfor.trans hu.2.2.1.symm)
      (iff_of_false hm' hside)
  · rintro rfl
    exact ⟨hu, hside⟩

theorem byId_self (h : Inv s) (hc : c ∈ s.models) : s.byId c.workspace_id c.id = some c := by
  obtain ⟨m, hm⟩ : ∃ m, s.byId c.workspace_id c.id = some m := by
    rw [← Option.isSome_iff_exists, Models.byId, List.find?_isSome]
    exact ⟨c, hc, by simp⟩
  obtain ⟨hmem, hid⟩ := Models.byId_eq_some hm
  rw [hm, List.inj_on_of_nodup_map h.ids hmem hc hid]

theorem predict_eq (h : Inv s) (hc : c ∈ s.models) (hsc : Scoreable c) :
    s.predict alpha score c.workspace_id c.id = s.scoreGbm alpha score c := by
  unfold Scoreable at hsc
  rw [Models.predict, byId_self h hc]
  change ensure _ _ >>= _ = _
  rw [ensure, if_pos hsc]
  rfl

theorem OnePerSide.scoreGbm_eq (hone : OnePerSide alpha s) (h : Inv s) (hp : Pair alpha s c l u)
    {expected : Fin height → ℚ} (hscore : score c = .ok expected) : s.scoreGbm alpha score c =
      if c.status = .superseded then
        .ok ⟨expected, none, none, .unavailable .intervalModelsStale⟩
      else if c.status = .approved ∧ (l.status ≠ .approved ∨ u.status ≠ .approved) then
        .ok ⟨expected, none, none, .unavailable .intervalModelsNotApproved⟩
      else do
        let low ← (score l).mapError .unscoreable
        let high ← (score u).mapError .unscoreable
        ensure (rowsCrossing low high = 0) (.crossing (rowsCrossing low high))
        return ⟨expected, some low, some high,
          .quantilePairInterval (alpha u.spec - alpha l.spec)
            ⟨l.id, u.id, alpha l.spec, alpha u.spec⟩⟩ := by
  have hlow := hone.lower_eq h hp.1 hp.2.1
  have hup := hone.upper_eq h hp.2.2.1 hp.2.2.2
  rw [fittedBounds] at hlow hup
  simp only [Models.scoreGbm, hscore, hlow, hup]
  rfl

theorem scoreGbm_unpaired {expected : Fin height → ℚ} (hscore : score c = .ok expected)
    (h : ¬ ∃ l u, Pair alpha s c l u) : s.scoreGbm alpha score c =
      .ok ⟨expected, none, none, .unavailable .noIntervalModelsFitted⟩ := by
  simp only [Models.scoreGbm, hscore]
  change (Except.ok _ >>= _ : Except PredictRefusal (Predicted height)) = _
  simp only [Except.bind, bind]
  split
  · rename_i l u hlow hup
    have hl : l ∈ (fittedBounds alpha s c).filter (IsLower alpha ·.spec) := by
      rw [fittedBounds, hlow]
      exact List.mem_singleton_self l
    have hu : u ∈ (fittedBounds alpha s c).filter (¬ IsLower alpha ·.spec) := by
      rw [fittedBounds, hup]
      exact List.mem_singleton_self u
    rw [List.mem_filter, mem_fittedBounds, decide_eq_true_eq] at hl hu
    exact absurd ⟨l, u, hl.1, hl.2, hu.1, hu.2⟩ h
  · rfl

theorem answers (h : Inv s) (hone : OnePerSide alpha s) (hc : c ∈ s.models) :
    Answers alpha score s c where
  unfitted hsc := by
    unfold Scoreable at hsc
    rw [Models.predict, byId_self h hc]
    change ensure _ _ >>= _ = _
    rw [ensure, if_neg hsc]
    rfl
  unpaired expected hsc hscore hp := (predict_eq h hc hsc).trans (scoreGbm_unpaired hscore hp)
  stale expected l u hsc hscore hp hst := by
    rw [predict_eq h hc hsc, hone.scoreGbm_eq h hp hscore, if_pos hst]
  notApproved expected l u hsc hscore hp hst hn := by
    rw [predict_eq h hc hsc, hone.scoreGbm_eq h hp hscore, if_neg (by simp [hst]),
      if_pos ⟨hst, not_and_or.mp hn⟩]
  crossing expected l u low high hsc hscore hp hst ha hlow hhigh hcross := by
    rw [predict_eq h hc hsc, hone.scoreGbm_eq h hp hscore, if_neg hst,
      if_neg fun hn => not_and_or.mpr hn.2 (ha hn.1), hlow, hhigh]
    change ensure _ _ >>= _ = _
    rw [ensure, if_neg hcross]
    rfl
  quoted expected l u low high hsc hscore hp hst ha hlow hhigh hcross := by
    refine ⟨hp.2.1.trans_le (not_lt.mp hp.2.2.2), ?_⟩
    rw [predict_eq h hc hsc, hone.scoreGbm_eq h hp hscore, if_neg hst,
      if_neg fun hn => not_and_or.mpr hn.2 (ha hn.1), hlow, hhigh]
    change ensure _ _ >>= _ = _
    rw [ensure, if_pos hcross]
    rfl

end Prediction

/-! ## Runs -/

/-- Every run keeps one bound a side and answers with the first reason that applies; it keeps the
pairs through approval exactly where every bound is approved in order. -/
theorem pairs_iff {height : ℕ} (score : ModelRow → Except String (Fin height → ℚ))
    (policies : UUID → ApprovalPolicy) (events : List ModelEvent) :
    Always (Models.stepBounded specHash alpha objectives)
        (fun s e s' => KeepsPair s e s' ∧ OnePerSide alpha s' ∧
          ∀ c ∈ s'.models, Answers alpha score s' c) (Models.init policies) events ↔
      Always (Models.stepBounded specHash alpha objectives) (fun s e _ => PairInOrder s e)
        (Models.init policies) events := by
  have hkeep : ∀ s e s', (Inv s ∧ OnePerSide alpha s) →
      s.stepBounded specHash alpha objectives e = some s' → Inv s' ∧ OnePerSide alpha s' :=
    fun s e s' hi hs => ⟨inv_stepBounded hi.1 hs, onePerSide_step hi.1 hi.2 hs⟩
  have hinit : Inv (Models.init policies) ∧ OnePerSide alpha (Models.init policies) :=
    ⟨init_inv policies, fun _ hb => nomatch hb⟩
  refine always_congr (fun s e s' hi hs _ => hkeep s e s' hi hs) (fun s e s' hi hs => ?_) hinit
    events
  obtain ⟨hi', hone'⟩ := hkeep s e s' hi hs
  rw [keepsPair_iff hi.1 hs]
  exact and_iff_left ⟨hone', fun c hc => answers hi' hone' hc⟩

theorem one_required : 1 ≤ 1 ∧ 1 ≤ 5 := by decide

def modelPolicy : ApprovalPolicy := ⟨[⟨"model", 1, ["approver"], none, [], one_required⟩]⟩

def motorCentral : ModelSpec := ⟨"motor", 1, "gbm", "split", ∅, none, none, none, "central"⟩

def motorBound (side : String) : ModelSpec :=
  { motorCentral with interval_for := some 1, objective_ref := some side, rest := side }

def motorAlpha (side : String) : ℚ := if side = "lower" then 1 / 20 else 19 / 20

/-- A model and its bounds are reserved and fitted, and the model is approved before its bounds. -/
def centralFirst : List ModelEvent :=
  let review (id : UUID) : ModelEvent :=
    .submitForReview ⟨id, 1, ⟨8, [], []⟩, true, id, "new data", true⟩
  let reserved (version : ℕ) : ModelEvent :=
    .record ⟨1, ⟨"model", "motor", version⟩, "model.reserved", 7⟩
  [.setDataset 1 (some "validated"), .setObjective 1 "lower" (some "approved"),
    .reserve ⟨1, 1, true, motorCentral, .ok ⟨⟩⟩, reserved 1,
    .reserve ⟨2, 1, true, motorBound "lower", .ok ⟨⟩⟩, reserved 2,
    .reserve ⟨3, 1, true, motorBound "upper", .ok ⟨⟩⟩, reserved 3,
    .recordFit ⟨1, 1, "fit", 11⟩, .recordFit ⟨1, 2, "fit", 12⟩, .recordFit ⟨1, 3, "fit", 13⟩,
    review 1, review 2, .decide ⟨1, 1, ⟨9, [.approvalDecide], ["approver"]⟩, .approve, none, none⟩]

/-- What a reader sees of the pair: each row's id, workspace, central model and status. -/
def seen (s : Models) : List (ℕ × ℕ × Option ℕ × ModelStatus) :=
  s.models.map fun m => (m.id, m.workspace_id, m.spec.interval_for, m.status)

def stepMotor : Models → ModelEvent → Option Models :=
  Models.stepBounded ModelSpec.rest (fun spec => motorAlpha spec.rest)
    fun _ ref => some ⟨"quantile", some (motorAlpha ref)⟩

def approveLower : ModelEvent :=
  .decide ⟨1, 2, ⟨9, [.approvalDecide], ["approver"]⟩, .approve, none, none⟩

/-- The approval of the lower bound supersedes the model that it bounds. -/
theorem centralFirst_superseded :
    ¬ ∀ (specHash : ModelSpec → String) (alpha : ModelSpec → ℚ)
      (objectives : UUID → String → Option ObjectiveParams)
      (score : ModelRow → Except String (Fin 1 → ℚ)) policies events,
      Always (Models.stepBounded specHash alpha objectives)
        (fun s e s' => KeepsPair s e s' ∧ OnePerSide alpha s' ∧
          ∀ c ∈ s'.models, Answers alpha score s' c) (Models.init policies) events := by
  intro h
  have hbefore : (run stepMotor (.init fun _ => modelPolicy) centralFirst).map seen =
      some [(1, 1, none, .approved), (2, 1, some 1, .review), (3, 1, some 1, .fitted)] := by
    with_unfolding_all decide
  have hafter : (run stepMotor (.init fun _ => modelPolicy) (centralFirst ++ [approveLower])).map
      seen =
      some [(1, 1, none, .superseded), (2, 1, some 1, .approved), (3, 1, some 1, .fitted)] := by
    with_unfolding_all decide
  obtain ⟨s, hs, hbefore⟩ := Option.map_eq_some_iff.mp hbefore
  obtain ⟨s', hs', hafter⟩ := Option.map_eq_some_iff.mp hafter
  rw [run_append, hs, Option.bind_some, run_cons_eq_some] at hs'
  obtain ⟨t, ht, hend⟩ := hs'
  obtain rfl := Option.some.inj hend
  have hi : Inv s := run_preserves (fun s e s' hi hs => inv_stepBounded hi hs) (init_inv _) hs
  have hkeep := ((h ModelSpec.rest (fun spec => motorAlpha spec.rest)
    (fun _ ref => some ⟨"quantile", some (motorAlpha ref)⟩) (fun _ => .ok fun _ => 0)
    (fun _ => modelPolicy) (centralFirst ++ [approveLower])).last hs ht).1
  have hrows : ∀ {u : Models} {row}, row ∈ seen u → ∃ m ∈ u.models,
      (m.id, m.workspace_id, m.spec.interval_for, m.status) = row := List.mem_map.mp
  obtain ⟨central, hc, hceq⟩ := hrows (hbefore ▸ List.mem_cons_self)
  obtain ⟨bound, hb, hbeq⟩ := hrows (hbefore ▸ List.mem_cons_of_mem _ List.mem_cons_self)
  simp only [Prod.mk.injEq] at hceq hbeq
  obtain ⟨hcid, hcw, -, hcs⟩ := hceq
  obtain ⟨hbid, hbw, hbf, hbs⟩ := hbeq
  have hseen : ∀ m ∈ t.models, (m.id, m.workspace_id, m.spec.interval_for, m.status) ∈ seen t :=
    fun m hm => List.mem_map_of_mem hm
  simp only [hafter, List.mem_cons, Prod.mk.injEq, List.not_mem_nil, or_false] at hseen
  have happroves : ∃ d, approveLower = .decide d ∧ Approves s d bound := by
    obtain ⟨move, new, hsteps⟩ := steps_of_step hi
      (show s.step ModelSpec.rest approveLower = some t from ht)
    have hmove := hseen (move bound) (hsteps.mem.mpr (Or.inl ⟨bound, hb, rfl⟩))
    rw [(hsteps.rows bound hb).keeps.1, hbid] at hmove
    obtain ⟨-, -, hst⟩ : (move bound).workspace_id = 1 ∧
        (move bound).spec.interval_for = some 1 ∧ (move bound).status = .approved := by
      simpa using hmove
    refine ((hsteps.rows bound hb).approved hst).resolve_left ?_
    rintro ⟨-, hst⟩
    rw [hbs] at hst
    cases hst
  obtain ⟨d, he, ha⟩ := happroves
  have hbound : bound.IsBound := by rw [ModelRow.IsBound, hbf]; rfl
  obtain ⟨r, hr, hrid, hrs⟩ := hkeep d bound he ha hbound central hc
    ⟨hcw.trans hbw.symm, Or.inl (by rw [hbf, hcid])⟩ (by rw [hcid, hbid]; decide)
  have hrow := hseen r hr
  rw [hrid, hcid, hrs, hcs] at hrow
  simp at hrow

end GiPricing.Modelling
