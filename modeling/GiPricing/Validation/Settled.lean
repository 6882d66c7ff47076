import GiPricing.Validation.NoBypass

/-! # Settling the warnings

A warning is settled by an acknowledgement of its rule. The warnings left over are the difference of
two counts, and the report as presented carries each acknowledgement at its rule. The two agree, and
every warning can be settled, where no result warns after another result of its rule.
-/

namespace GiPricing.Validation

open Failure Transition

/-! ## The report as presented -/

structure ResultView where
  result : RuleResult
  acknowledgement : Option AcknowledgementRow

def ResultView.needsAcknowledgement (v : ResultView) : Bool :=
  v.result.outcome = .warn ∧ v.acknowledgement.isNone = true

namespace Store

/-- `acknowledgements_for`, looked up at a rule: the last row of the rule. -/
def acknowledgementsFor (s : Store) (workspace_id report_id rule_id : UUID) :
    Option AcknowledgementRow :=
  (s.acknowledgements.filter fun a =>
    a.workspace_id = workspace_id ∧ a.report_id = report_id).reverse.find? (·.rule_id = rule_id)

def viewOf (s : Store) (row : ValidationReportRow) : List ResultView :=
  row.results.map fun x => ⟨x, s.acknowledgementsFor row.workspace_id row.id x.rule_id⟩

/-- `load_report_view` -/
def loadReportView (s : Store) (workspace_id report_id : UUID) :
    Except ValidationError (List ResultView) := do
  let row ← require (s.report? workspace_id report_id) .reportNotFound
  return s.viewOf row

def acknowledgeAll (s : Store) (calls : List Acknowledge) : Except ValidationError Store :=
  calls.foldlM acknowledge s

end Store

/-! ## Settled reports -/

/-- A call for one rule of a report, by an actor who may make it. -/
structure Admissible (row : ValidationReportRow) (c : Store.Acknowledge) : Prop where
  workspace_id : c.workspace_id = row.workspace_id
  report_id : c.report_id = row.id
  permitted : c.permitted = true
  justified : isBlank c.justification = false

def Acknowledged (s : Store) (row : ValidationReportRow) (rule_id : UUID) : Prop :=
  ∃ a ∈ s.acknowledgements, a.report_id = row.id ∧ a.rule_id = rule_id

/-- What the acknowledgements of a report come to. -/
structure Settles (s : Store) (row : ValidationReportRow) : Prop where
  /-- Only rules with a warning are acknowledged. -/
  warned : ∀ rule_id, Acknowledged s row rule_id →
    ∃ x ∈ row.results, x.rule_id = rule_id ∧ x.outcome = .warn
  /-- The count of the warnings left over is that of the report as presented. -/
  counted : ∃ view, s.loadReportView row.workspace_id row.id = .ok view ∧
    s.unacknowledgedWarnings row = (view.filter (·.needsAcknowledgement)).length
  /-- One acknowledgement for each warned rule leaves none. -/
  done : (∀ x ∈ row.results, x.outcome = .warn → Acknowledged s row x.rule_id) →
    s.unacknowledgedWarnings row = 0
  /-- Each warning without an acknowledgement takes one. -/
  settles : ∀ x ∈ row.results, x.outcome = .warn → ¬ Acknowledged s row x.rule_id →
    ∀ c, Admissible row c → c.rule_id = x.rule_id → ∃ s', s.acknowledge c = .ok s'
  /-- A report that permits validation is promoted on, after some acknowledgements, as far as the
  status of its version allows. -/
  promotes : Store.permitsValidation row → ∀ c, Admissible row c →
    ∃ (rule_ids : List UUID) (s' : Store),
    s.acknowledgeAll (rule_ids.map fun rule_id => { c with rule_id := rule_id }) = .ok s' ∧
      s'.versions = s.versions ∧
      s'.promoteUsingReport row.workspace_id row.dataset_version_id row.id =
        s'.moveTo row.workspace_id row.dataset_version_id .validated fun v =>
          { v with validation_report_id := some row.id }

/-! ## Rules and their first results -/

/-- No result warns after another result of its rule. -/
def Firsts (results : List RuleResult) : Prop :=
  results.Pairwise fun x y => x.rule_id = y.rule_id → y.outcome ≠ .warn

section Firsts

variable {results : List RuleResult} {x : RuleResult}

/-- A warning is the result that its rule is looked up by. -/
theorem Firsts.find (h : Firsts results) (hx : x ∈ results) (hwarn : x.outcome = .warn) :
    results.find? (·.rule_id = x.rule_id) = some x := by
  induction results with
  | nil => cases hx
  | cons y results ih =>
    obtain ⟨hy, h⟩ := List.pairwise_cons.mp h
    rcases List.mem_cons.mp hx with rfl | hx
    · rw [List.find?_cons_of_pos (by simp)]
    · have hne : y.rule_id ≠ x.rule_id := fun he => hy x hx he hwarn
      rw [List.find?_cons_of_neg (by simpa using hne)]
      exact ih h hx

theorem Firsts.nodup (h : Firsts results) :
    ((results.filter (·.outcome = .warn)).map (·.rule_id)).Nodup := by
  rw [List.Nodup, List.pairwise_map, List.pairwise_filter]
  refine h.imp fun {x y} hxy _ hwarn he => hxy he (by simpa using hwarn)

end Firsts

/-! ## Acknowledgements of a report -/

section Report

variable {s s' : Store} {row : ValidationReportRow} {c : Store.Acknowledge}

/-- Every acknowledgement is of its report's workspace. -/
def Owned (s : Store) : Prop :=
  ∀ a ∈ s.acknowledgements, ∃ r ∈ s.reports, r.id = a.report_id ∧ r.workspace_id = a.workspace_id

/-- A stored report whose warnings come first, among the tables of a run. -/
structure Held (s : Store) (row : ValidationReportRow) : Prop where
  inv : Inv s
  owned : Owned s
  mem : row ∈ s.reports
  firsts : Firsts row.results

theorem Held.report (h : Held s row) : s.report? row.workspace_id row.id = some row :=
  (find_eq_some h.inv.reportIds).mpr ⟨h.mem, rfl, rfl⟩

theorem Held.workspace (h : Held s row) {a : AcknowledgementRow} (ha : a ∈ s.acknowledgements)
    (hid : a.report_id = row.id) : a.workspace_id = row.workspace_id := by
  obtain ⟨r, hr, hra, hws⟩ := h.owned a ha
  obtain rfl := List.inj_on_of_nodup_map h.inv.reportIds hr h.mem (hra.trans hid)
  exact hws.symm

theorem acknowledgementsFor_isNone (h : Held s row) (rule_id : UUID) :
    (s.acknowledgementsFor row.workspace_id row.id rule_id).isNone = true ↔
      ¬ Acknowledged s row rule_id := by
  rw [Store.acknowledgementsFor, Option.isNone_iff_eq_none, List.find?_eq_none]
  constructor
  · rintro hnone ⟨a, ha, hid, hrule⟩
    refine hnone a (List.mem_reverse.mpr (List.mem_filter.mpr ⟨ha, ?_⟩)) (by simpa using hrule)
    simpa using ⟨h.workspace ha hid, hid⟩
  · intro hnot a ha
    obtain ⟨ha, hscope⟩ := List.mem_filter.mp (List.mem_reverse.mp ha)
    simp only [decide_eq_true_eq] at hscope ⊢
    exact fun hrule => hnot ⟨a, ha, hscope.2, hrule⟩

theorem acknowledge_eq_ok (h : Held s row) (hc : Admissible row c) : s.acknowledge c = .ok s' ↔
    (∃ x, row.results.find? (·.rule_id = c.rule_id) = some x ∧ x.outcome = .warn) ∧
      ¬ Acknowledged s row c.rule_id ∧
      s' = { s with acknowledgements := s.acknowledgements ++ [⟨c.workspace_id,
        row.dataset_version_id, c.report_id, c.rule_id, c.user_id, c.justification⟩] } := by
  have hreport : s.report? c.workspace_id c.report_id = some row := by
    rw [hc.workspace_id, hc.report_id]
    exact h.report
  have hnew : (∀ a ∈ s.acknowledgements, a.report_id = c.report_id → a.rule_id ≠ c.rule_id) ↔
      ¬ Acknowledged s row c.rule_id := by
    rw [hc.report_id]
    simp only [Acknowledged, not_exists, not_and, ne_eq]
  simp only [Store.acknowledge, ensure_bind_eq_ok, require_bind_eq_ok, pure_eq_ok, hreport, hnew]
  constructor
  · rintro ⟨-, _, ⟨⟩, -, x, hx, hwarn, hnot, rfl⟩
    exact ⟨⟨x, hx, hwarn⟩, hnot, rfl⟩
  · rintro ⟨⟨x, hx, hwarn⟩, hnot, rfl⟩
    exact ⟨hc.justified, row, rfl, hc.permitted, x, hx, hwarn, hnot, rfl⟩

theorem acknowledged_of_ok (h : Held s row) (hc : Admissible row c) (hs : s.acknowledge c = .ok s')
    (rule_id : UUID) :
    Acknowledged s' row rule_id ↔ Acknowledged s row rule_id ∨ rule_id = c.rule_id := by
  obtain ⟨-, -, rfl⟩ := (acknowledge_eq_ok h hc).mp hs
  constructor
  · rintro ⟨a, ha, hid, hrule⟩
    rcases List.mem_append.mp ha with ha | ha
    · exact Or.inl ⟨a, ha, hid, hrule⟩
    · obtain rfl := List.mem_singleton.mp ha
      exact Or.inr hrule.symm
  · rintro (⟨a, ha, hrest⟩ | rfl)
    · exact ⟨a, List.mem_append_left _ ha, hrest⟩
    · exact ⟨_, List.mem_append_right _ (List.mem_singleton_self _), hc.report_id, rfl⟩

/-! ## The two counts -/

instance (rule_id : UUID) : Decidable (Acknowledged s row rule_id) :=
  inferInstanceAs (Decidable (∃ a ∈ s.acknowledgements, _ ∧ _))

variable (s row) in
def leftOver : List RuleResult :=
  (row.results.filter (·.outcome = .warn)).filter fun x => ¬ Acknowledged s row x.rule_id

theorem mem_leftOver {x : RuleResult} : x ∈ leftOver s row ↔
    x ∈ row.results ∧ x.outcome = .warn ∧ ¬ Acknowledged s row x.rule_id := by
  simp only [leftOver, List.mem_filter, decide_eq_true_eq, and_assoc]

theorem length_view (h : Held s row) :
    ((s.viewOf row).filter (·.needsAcknowledgement)).length = (leftOver s row).length := by
  rw [Store.viewOf, List.filter_map, List.length_map, leftOver, List.filter_filter]
  congr 1
  apply List.filter_congr
  intro x _
  simp only [Function.comp, ResultView.needsAcknowledgement, acknowledgementsFor_isNone h]
  grind

theorem length_acknowledgements (h : Held s row) :
    (s.acknowledgements.filter (·.report_id = row.id)).length =
      ((row.results.filter (·.outcome = .warn)).filter fun x =>
        Acknowledged s row x.rule_id).length := by
  have hperm : ((s.acknowledgements.filter (·.report_id = row.id)).map (·.rule_id)).Perm
      (((row.results.filter (·.outcome = .warn)).filter fun x =>
        Acknowledged s row x.rule_id).map (·.rule_id)) := by
    apply (List.perm_ext_iff_of_nodup (acknowledged_nodup h.inv row.id) _).mpr
    · intro rule_id
      constructor
      · intro hid
        obtain ⟨a, ha, rfl⟩ := List.mem_map.mp hid
        rw [List.mem_filter, decide_eq_true_eq] at ha
        obtain ⟨x, hx, hrule, hwarn⟩ := acknowledged_warned h.inv h.mem ha.1 ha.2
        refine List.mem_map.mpr ⟨x, ?_, hrule⟩
        simpa [hx, hwarn] using ⟨a, ha.1, ha.2, hrule.symm⟩
      · intro hid
        obtain ⟨x, hx, rfl⟩ := List.mem_map.mp hid
        obtain ⟨a, ha, har, hrule⟩ := of_decide_eq_true (List.mem_filter.mp hx).2
        exact List.mem_map.mpr ⟨a, List.mem_filter.mpr ⟨ha, by simpa using har⟩, hrule⟩
    · exact h.firsts.nodup.sublist (List.filter_sublist.map _)
  simpa using hperm.length_eq

theorem unacknowledged_eq (h : Held s row) :
    s.unacknowledgedWarnings row = (leftOver s row).length := by
  have hsplit := List.length_eq_length_filter_add (l := row.results.filter (·.outcome = .warn))
    fun x => decide (Acknowledged s row x.rule_id)
  rw [Store.unacknowledgedWarnings, warn_count_eq h.inv h.mem, length_acknowledgements h, hsplit,
    leftOver]
  simp

/-! ## Acknowledging in turn -/

theorem Owned.acknowledge (h : Owned s) {ws report_id : UUID} {r : ValidationReportRow}
    (hr : s.report? ws report_id = some r) {a : AcknowledgementRow} (haws : a.workspace_id = ws)
    (harep : a.report_id = report_id) :
    Owned { s with acknowledgements := s.acknowledgements ++ [a] } := by
  intro b hb
  rcases List.mem_append.mp hb with hb | hb
  · exact h b hb
  · obtain rfl := List.mem_singleton.mp hb
    have hfound := List.find?_some hr
    simp only [decide_eq_true_eq] at hfound
    exact ⟨r, List.mem_of_find?_eq_some hr, hfound.1.trans harep.symm, hfound.2.trans haws.symm⟩

theorem Held.acknowledge (h : Held s row) (hc : Admissible row c) (hs : s.acknowledge c = .ok s') :
    Held s' row := by
  have hspec : Spec s (.acknowledge c) s' := spec_acknowledge h.inv hs
  refine ⟨hspec.inv, ?_, hspec.extend.reports h.mem, h.firsts⟩
  obtain ⟨-, -, rfl⟩ := (acknowledge_eq_ok h hc).mp hs
  exact h.owned.acknowledge h.report hc.workspace_id hc.report_id

/-- A warning left over takes an acknowledgement, which leaves fewer. -/
theorem Held.settle (h : Held s row) (hc : Admissible row c) {x : RuleResult}
    (hx : x ∈ leftOver s row) (hrule : c.rule_id = x.rule_id) :
    ∃ s', s.acknowledge c = .ok s' ∧ s'.versions = s.versions ∧
      (leftOver s' row).length < (leftOver s row).length := by
  obtain ⟨hxr, hwarn, hnot⟩ := mem_leftOver.mp hx
  obtain ⟨s', hs⟩ : ∃ s', s.acknowledge c = .ok s' := ⟨_, (acknowledge_eq_ok h hc).mpr
    ⟨⟨x, by rw [hrule]; exact h.firsts.find hxr hwarn, hwarn⟩, by rwa [hrule], rfl⟩⟩
  have hversions : s'.versions = s.versions := by
    obtain ⟨-, -, rfl⟩ := (acknowledge_eq_ok h hc).mp hs
    rfl
  refine ⟨s', hs, hversions, ?_⟩
  have hiff := acknowledged_of_ok h hc hs
  have hsub : leftOver s' row = (leftOver s row).filter (·.rule_id ≠ c.rule_id) := by
    rw [leftOver, leftOver, List.filter_filter, List.filter_filter, List.filter_filter]
    apply List.filter_congr
    intro y _
    grind
  rw [hsub]
  apply List.length_filter_lt_length_iff_exists.mpr
  exact ⟨x, hx, by simp [hrule]⟩

theorem Held.promotes (hpermits : Store.permitsValidation row) (h : Held s row)
    (hc : Admissible row c) : ∃ (rule_ids : List UUID) (s' : Store),
    s.acknowledgeAll (rule_ids.map fun rule_id => { c with rule_id := rule_id }) = .ok s' ∧
      s'.versions = s.versions ∧
      s'.promoteUsingReport row.workspace_id row.dataset_version_id row.id =
        s'.moveTo row.workspace_id row.dataset_version_id .validated fun v =>
          { v with validation_report_id := some row.id } := by
  induction hn : (leftOver s row).length using Nat.strong_induction_on generalizing s with
  | _ n ih =>
  cases hleft : leftOver s row with
  | nil =>
    refine ⟨[], s, rfl, rfl, ?_⟩
    have hzero : s.unacknowledgedWarnings row = 0 := by rw [unacknowledged_eq h, hleft]; rfl
    have hpassed : (row.overall = .pass ∨ row.overall = .passWithWarnings) := hpermits
    simp [Store.promoteUsingReport, Store.promoteToValidated, h.report, require, ensure, hzero,
      hpassed, bind, Except.bind]
  | cons x rest =>
    have hx : x ∈ leftOver s row := hleft ▸ List.mem_cons_self
    have hcall : Admissible row { c with rule_id := x.rule_id } :=
      ⟨hc.workspace_id, hc.report_id, hc.permitted, hc.justified⟩
    obtain ⟨t, ht, hversions, hfewer⟩ := h.settle hcall hx rfl
    obtain ⟨rule_ids, s', hs', hsame, hpromote⟩ :=
      ih _ (hn ▸ hfewer) (h.acknowledge hcall ht) rfl
    refine ⟨x.rule_id :: rule_ids, s', ?_, hsame.trans hversions, hpromote⟩
    rw [Store.acknowledgeAll, List.map_cons, List.foldlM_cons, ht]
    exact hs'

theorem Held.settled (h : Held s row) : Settles s row where
  warned := by
    rintro rule_id ⟨a, ha, hid, rfl⟩
    exact acknowledged_warned h.inv h.mem ha hid
  counted := by
    refine ⟨s.viewOf row, ?_, ?_⟩
    · rw [Store.loadReportView, h.report]
      rfl
    · rw [unacknowledged_eq h, length_view h]
  done hall := by
    rw [unacknowledged_eq h, List.length_eq_zero_iff, List.eq_nil_iff_forall_not_mem]
    intro x hx
    obtain ⟨hxr, hwarn, hnot⟩ := mem_leftOver.mp hx
    exact hnot (hall x hxr hwarn)
  settles x hx hwarn hnot c hc hrule := by
    obtain ⟨s', hs', -⟩ := h.settle hc (mem_leftOver.mpr ⟨hx, hwarn, hnot⟩) hrule
    exact ⟨s', hs'⟩
  promotes hpermits c hc := h.promotes hpermits hc

end Report

/-! ## Runs -/

/-- No member that warns stands after another enabled member of its rule. -/
def ValidationRuleSet.Settleable (ruleSet : ValidationRuleSet) : Prop :=
  ruleSet.enabledEntries.Pairwise fun e e' =>
    e.rule.id = e'.rule.id → e'.effectiveSeverity ≠ .warn

section Runs

variable {s s' : Store} {e : Event} {ruleSet : ValidationRuleSet} {checked : ℕ → Store.Checked}

theorem runOne_warns {entry : RuleSetEntry} {c : Store.Checked}
    (h : (Store.runOne entry c).outcome = .warn) : entry.effectiveSeverity = .warn := by
  cases c with
  | raised => cases h
  | skipped => cases h
  | counted violating tolerated =>
    simp only [Store.runOne] at h
    split_ifs at h
    cases hsev : entry.effectiveSeverity with
    | warn => rfl
    | fail => simp [hsev] at h

theorem firsts_runValidation (h : ruleSet.Settleable) (checked : ℕ → Store.Checked) :
    Firsts (Store.runValidation ruleSet checked) := by
  apply List.pairwise_iff_getElem.mpr
  intro i j hi hj hij
  simp only [Store.runValidation, List.length_mapIdx] at hi hj
  simp only [Store.runValidation, List.getElem_mapIdx]
  intro hrule hwarn
  exact List.pairwise_iff_getElem.mp h i j hi hj hij hrule (runOne_warns hwarn)

/-- A step adds an acknowledgement of a stored report only. -/
theorem acknowledgements_step (hi : Inv s) (hs : s.step e = some s') :
    s'.acknowledgements = s.acknowledgements ∨ ∃ c, s.acknowledge c = .ok s' := by
  cases e with
  | newVersion id workspace_id dataset_id =>
    simp only [Store.step] at hs
    split_ifs at hs
    cases hs
    exact Or.inl rfl
  | putRule row =>
    cases hs
    exact Or.inl rfl
  | replaceRuleSet c =>
    simp only [Store.step] at hs
    rcases hr : s.replaceRuleSet c with r | t <;> rw [hr] at hs <;> cases hs
    · exact Or.inl rfl
    · simp only [Store.replaceRuleSet, bind_eq_ok, pure_eq_ok] at hr
      obtain ⟨-, -, -, -, -, -, rfl⟩ := hr
      exact Or.inl rfl
  | load c =>
    simp only [Store.step] at hs
    rcases hl : s.load c with r | job <;> rw [hl] at hs <;> cases hs
    all_goals exact Or.inl rfl
  | store job_id report_id checked =>
    simp only [Store.step] at hs
    split_ifs at hs
    obtain ⟨job, -, rfl⟩ := Option.map_eq_some_iff.mp hs
    rcases ht : s.store job report_id checked with r | t
    · exact Or.inl rfl
    · cases stored_of_ok hi.ids ht <;> exact Or.inl rfl
  | transition c =>
    simp only [Store.step] at hs
    rcases ht : s.transitionRoute c with r | t <;> rw [ht] at hs <;> cases hs
    · exact Or.inl rfl
    · obtain ⟨-, v, -, -, h⟩ := transitionRoute_eq_ok.mp ht
      rcases h with ⟨-, _, _, -, -, -, -, -, rfl⟩ | ⟨-, -, rfl⟩
      all_goals exact Or.inl rfl
  | acknowledge c =>
    simp only [Store.step] at hs
    rcases ha : s.acknowledge c with r | t <;> rw [ha] at hs <;> cases hs
    · exact Or.inl rfl
    · exact Or.inr ⟨c, ha⟩

theorem owned_step (hi : Inv s) (ho : Owned s) (hs : s.step e = some s') : Owned s' := by
  rcases acknowledgements_step hi hs with hsame | ⟨c, hc⟩
  · intro a ha
    rw [hsame] at ha
    obtain ⟨r, hr, hrest⟩ := ho a ha
    exact ⟨r, (spec_of_step hi hs).extend.reports hr, hrest⟩
  · simp only [Store.acknowledge, ensure_bind_eq_ok, require_bind_eq_ok, pure_eq_ok] at hc
    obtain ⟨-, r, hr, -, x, -, -, -, rfl⟩ := hc
    exact ho.acknowledge hr rfl rfl

theorem held_step {row : ValidationReportRow} (h : Held s row) (hs : s.step e = some s') :
    Held s' row :=
  ⟨(spec_of_step h.inv hs).inv, owned_step h.inv h.owned hs,
    (spec_of_step h.inv hs).extend.reports h.mem, h.firsts⟩

variable {job : Running} {job_id report_id : UUID} {s₁ : Store}

theorem stored_reports (hi : Inv s) (h : s.store job report_id checked = .ok s₁) :
    s₁.reports = s.reports ++
        [Store.reportOf job report_id (Store.runValidation job.rule_set checked)] ∧
      s₁.acknowledgements = s.acknowledgements := by
  cases stored_of_ok hi.ids h <;> exact ⟨rfl, rfl⟩

theorem step_store (hjob : s.running.find? (·.job_id = job_id) = some job)
    (hfresh : ∀ r ∈ s.reports, r.id ≠ report_id) (h : s.store job report_id checked = .ok s₁) :
    s.step (.store job_id report_id checked) =
      some { s₁ with running := s.running.filter (·.job_id ≠ job_id) } := by
  rw [Store.step, if_pos hfresh, hjob, Option.map_some, h]
  rfl

theorem stored_of_stored {checked' : ℕ → Store.Checked}
    (h : s.store job report_id checked = .ok s₁)
    (hpermits : Store.permitsValidation
      (Store.reportOf job report_id (Store.runValidation job.rule_set checked'))) :
    ∃ s₂, s.store job report_id checked' = .ok s₂ := by
  unfold Store.store at h ⊢
  split at h
  · obtain ⟨t, ht, h⟩ := bind_eq_ok.mp h
    simp only [Store.storeReport, require_bind_eq_ok, pure_eq_ok] at ht
    obtain ⟨v, hv, rfl⟩ := ht
    obtain ⟨rule, hrule, h⟩ := require_bind_eq_ok.mp h
    obtain ⟨hstatus, -⟩ := ensure_bind_eq_ok.mp h
    let row := Store.reportOf job report_id (Store.runValidation job.rule_set checked')
    have hstore : s.storeReport row = .ok { s with reports := s.reports ++ [row] } :=
      require_bind_eq_ok.mpr ⟨v, hv, rfl⟩
    obtain ⟨s₂, hattach⟩ : ∃ s₂, Store.attachDryRun { s with reports := s.reports ++ [row] }
        job.workspace_id _ report_id = .ok s₂ := by
      simp only [Store.attachDryRun, require_bind_eq_ok, ensure_bind_eq_ok, pure_eq_ok]
      exact ⟨_, rule, hrule, hstatus, rfl⟩
    exact ⟨s₂, bind_eq_ok.mpr ⟨_, hstore, hattach⟩⟩
  · obtain ⟨t, ht, h⟩ := bind_eq_ok.mp h
    obtain ⟨u, hu, -⟩ := bind_eq_ok.mp h
    obtain ⟨v, hv, -⟩ := require_bind_eq_ok.mp hu
    let row := Store.reportOf job report_id (Store.runValidation job.rule_set checked')
    have hstore : t.storeReport row = .ok { t with reports := t.reports ++ [row] } :=
      require_bind_eq_ok.mpr ⟨v, hv, rfl⟩
    refine ⟨{ t with reports := t.reports ++ [row] }, ?_⟩
    exact bind_eq_ok.mpr ⟨t, ht, bind_eq_ok.mpr ⟨_, hstore, if_pos hpermits⟩⟩

def onlyAt (j i : ℕ) : Store.Checked := if i = j then .counted 1 0 else .counted 0 0

theorem outcome_onlyAt {i j : ℕ} (hi : i < ruleSet.enabledEntries.length)
    (hwarn : ∀ hj : j < ruleSet.enabledEntries.length,
      (ruleSet.enabledEntries[j]).effectiveSeverity = .warn)
    (hlt : i < (Store.runValidation ruleSet (onlyAt j)).length) :
    ((Store.runValidation ruleSet (onlyAt j))[i]).outcome = if i = j then .warn else .pass := by
  simp only [Store.runValidation, List.getElem_mapIdx, Store.runOne, onlyAt]
  split_ifs with h
  · subst h
    simp [hwarn hi]
  · simp

theorem permits_onlyAt {j : ℕ} (hwarn : ∀ hj : j < ruleSet.enabledEntries.length,
    (ruleSet.enabledEntries[j]).effectiveSeverity = .warn) (hrule : job.rule_set = ruleSet) :
    Store.permitsValidation
      (Store.reportOf job report_id (Store.runValidation job.rule_set (onlyAt j))) := by
  subst hrule
  have hout : ∀ o ∈ (Store.runValidation job.rule_set (onlyAt j)).map (·.outcome),
      o = .warn ∨ o = .pass := by
    intro o ho
    obtain ⟨x, hx, rfl⟩ := List.mem_map.mp ho
    obtain ⟨i, hi, rfl⟩ := List.mem_iff_getElem.mp hx
    rw [outcome_onlyAt (by simpa [Store.runValidation] using hi) hwarn hi]
    split_ifs
    · exact Or.inl rfl
    · exact Or.inr rfl
  have hfail : RuleOutcome.fail ∉ (Store.runValidation job.rule_set (onlyAt j)).map (·.outcome) :=
    fun h => by simpa using hout _ h
  have herror : RuleOutcome.error ∉ (Store.runValidation job.rule_set (onlyAt j)).map (·.outcome) :=
    fun h => by simpa using hout _ h
  simp only [Store.permitsValidation, Store.reportOf, Store.overallOutcome, if_neg hfail,
    if_neg herror]
  split_ifs
  · exact Or.inr rfl
  · exact Or.inl rfl

theorem held_store (hi : Inv s) (ho : Owned s) (hjob : s.running.find? (·.job_id = job_id) = some job)
    (hfresh : ∀ r ∈ s.reports, r.id ≠ report_id) (h : s.store job report_id checked = .ok s₁)
    (hfirsts : Firsts (Store.runValidation job.rule_set checked)) :
    Held { s₁ with running := s.running.filter (·.job_id ≠ job_id) }
      (Store.reportOf job report_id (Store.runValidation job.rule_set checked)) := by
  have hstep := step_store hjob hfresh h
  refine ⟨(spec_of_step hi hstep).inv, owned_step hi ho hstep, ?_, hfirsts⟩
  rw [(stored_reports hi h).1]
  exact List.mem_append_right _ (List.mem_singleton_self _)

theorem reachable_owned {events : List Event} (hrun : run Store.step .init events = some s) :
    Inv s ∧ Owned s := by
  have hstep : ∀ s e s', Inv s ∧ Owned s → Store.step s e = some s' → Inv s' ∧ Owned s' :=
    fun s e s' h hs => ⟨(spec_of_step h.1 hs).inv, owned_step h.1 h.2 hs⟩
  have hinit : Inv .init ∧ Owned .init := ⟨init_inv, fun a ha => nomatch ha⟩
  have hreached := run_preserves hstep hinit hrun
  exact hreached

theorem held_run {row : ValidationReportRow} {events : List Event} (h : Held s row)
    (hrun : run Store.step s events = some s') : Held s' row := by
  have hstep : ∀ s e s', Held s row → Store.step s e = some s' → Held s' row :=
    fun _ _ _ h hs => held_step h hs
  have hheld := run_preserves hstep h hrun
  exact hheld

theorem not_acknowledged (ho : Owned s) (hfresh : ∀ r ∈ s.reports, r.id ≠ report_id)
    (hacks : s₁.acknowledgements = s.acknowledgements) {results : List RuleResult} {rule_id : UUID} :
    ¬ Acknowledged s₁ (Store.reportOf job report_id results) rule_id := by
  rintro ⟨a, ha, hid, -⟩
  rw [hacks] at ha
  obtain ⟨r, hr, hra, -⟩ := ho a ha
  exact hfresh r hr (hra.trans hid)

/-- Every report that a job stores is settled by its acknowledgements, whatever the checks find and
whatever is done after, exactly where no member of the rule set that warns stands after another
enabled member of its rule. -/
theorem settled_iff {events : List Event} (hrun : run Store.step .init events = some s)
    (hjob : s.running.find? (·.job_id = job_id) = some job)
    (hfresh : ∀ r ∈ s.reports, r.id ≠ report_id)
    (hstored : ∃ checked s₁, s.store job report_id checked = .ok s₁) :
    (∀ checked s₁, s.store job report_id checked = .ok s₁ → ∀ later s',
      run Store.step s (.store job_id report_id checked :: later) = some s' →
        ∀ row ∈ s'.reports, row.id = report_id → Settles s' row) ↔ job.rule_set.Settleable := by
  obtain ⟨hi, ho⟩ := reachable_owned hrun
  constructor
  · intro hall
    apply List.pairwise_iff_getElem.mpr
    intro i j hij hj hlt hrule hwarn
    obtain ⟨checked, s₀, h₀⟩ := hstored
    have hsev : ∀ hj : j < job.rule_set.enabledEntries.length,
        (job.rule_set.enabledEntries[j]).effectiveSeverity = .warn := fun _ => hwarn
    obtain ⟨s₁, h₁⟩ := stored_of_stored h₀ (permits_onlyAt hsev rfl)
    obtain ⟨hreports, hacks⟩ := stored_reports hi h₁
    have hstep := step_store hjob hfresh h₁
    let results := Store.runValidation job.rule_set (onlyAt j)
    have hlength : results.length = job.rule_set.enabledEntries.length := by
      simp [results, Store.runValidation]
    have hj' : j < results.length := hlength ▸ hj
    have hmem : Store.reportOf job report_id results ∈ s₁.reports := by
      rw [hreports]
      exact List.mem_append_right _ (List.mem_singleton_self _)
    have hsettles := hall _ s₁ h₁ [] _ (run_cons_eq_some.mpr ⟨_, hstep, rfl⟩) _ hmem rfl
    have hwarned : results[j].outcome = .warn :=
      (outcome_onlyAt hj hsev hj').trans (if_pos rfl)
    have hjustified : isBlank "accepted" = false := by decide
    obtain ⟨s', hs'⟩ := hsettles.settles results[j] (List.getElem_mem hj') hwarned
      (not_acknowledged ho hfresh hacks)
      ⟨job.workspace_id, 0, true, report_id, results[j].rule_id, "accepted"⟩
      ⟨rfl, rfl, rfl, hjustified⟩ rfl
    simp only [Store.acknowledge, ensure_bind_eq_ok, require_bind_eq_ok] at hs'
    obtain ⟨-, r, hr, -, x, hx, hxw, -⟩ := hs'
    obtain ⟨hrm, hrid⟩ := report_eq_some hr
    obtain rfl := List.inj_on_of_nodup_map (spec_of_step hi hstep).inv.reportIds hrm hmem hrid
    -- the call looks its rule up, and the first result of the rule is no warning
    obtain ⟨-, k, hk, rfl, hbefore⟩ := List.find?_eq_some_iff_getElem.mp hx
    have hkj : k = j := by
      by_contra hne
      have hpass := (outcome_onlyAt (hlength ▸ hk) hsev hk).trans (if_neg hne)
      exact absurd (hpass.symm.trans hxw) (by decide)
    have hnot := hbefore i (hkj ▸ hlt)
    simp [results, Store.reportOf, Store.runValidation, Store.runOne, hrule] at hnot
  · intro hset checked s₁ h₁ later s' hlater row hrow hid
    obtain ⟨t, ht, hlater⟩ := run_cons_eq_some.mp hlater
    obtain rfl := Option.some.inj ((step_store hjob hfresh h₁).symm.trans ht)
    have hheld := held_run
      (held_store hi ho hjob hfresh h₁ (firsts_runValidation hset checked)) hlater
    obtain rfl := List.inj_on_of_nodup_map hheld.inv.reportIds hrow hheld.mem hid
    exact hheld.settled

def oneRule : List Event :=
  [.newVersion 1 1 1, .putRule ⟨5, 1, "lapse-rate", 1, .warn, "approved", none⟩,
    .replaceRuleSet ⟨3, 1, true, 1, "policies", [⟨5, true, none⟩]⟩, .load ⟨7, 1, 1, none⟩]

theorem oneRule_settles : ∃ s job, run Store.step .init oneRule = some s ∧
    s.running.find? (·.job_id = 7) = some job ∧
    ∀ checked s₁, s.store job 9 checked = .ok s₁ → ∀ later s',
      run Store.step s (.store 7 9 checked :: later) = some s' →
        ∀ row ∈ s'.reports, row.id = 9 → Settles s' row := by
  have hrun : (run Store.step .init oneRule).bind (fun s => (s.running.find? (·.job_id = 7)).map
      fun job => (s.reports.length, job.rule_set.enabledEntries.length,
        (s.store job 9 fun _ => .counted 1 0).toOption.isSome)) = some (0, 1, true) := by
    decide
  obtain ⟨s, hs, hstep⟩ := Option.bind_eq_some_iff.mp hrun
  obtain ⟨job, hjob, heq⟩ := Option.map_eq_some_iff.mp hstep
  obtain ⟨hreports, hentries, hstore⟩ : s.reports.length = 0 ∧
      job.rule_set.enabledEntries.length = 1 ∧
      (s.store job 9 fun _ => .counted 1 0).toOption.isSome = true := by simpa using heq
  obtain ⟨entry, hentry⟩ := List.length_eq_one_iff.mp hentries
  have hset : job.rule_set.Settleable := by
    rw [ValidationRuleSet.Settleable, hentry]
    exact List.pairwise_singleton _ _
  have hfresh : ∀ r ∈ s.reports, r.id ≠ 9 := by
    rw [List.length_eq_zero_iff.mp hreports]
    exact fun _ hr => nomatch hr
  have hstored : ∃ checked s₁, s.store job 9 checked = .ok s₁ := by
    cases h : s.store job 9 fun _ => .counted 1 0 with
    | error e => simp [h, Except.toOption] at hstore
    | ok s₁ => exact ⟨_, s₁, h⟩
  exact ⟨s, job, hs, hjob, (settled_iff hs hjob hfresh hstored).mpr hset⟩

/-- One rule twice in a set, and the one acknowledgement that its two warnings take. -/
def ruleTwice : List Event :=
  [.newVersion 1 1 1, .putRule ⟨5, 1, "lapse-rate", 1, .warn, "approved", none⟩,
    .replaceRuleSet ⟨3, 1, true, 1, "policies", [⟨5, true, none⟩, ⟨5, true, none⟩]⟩,
    .load ⟨7, 1, 1, none⟩, .store 7 9 (fun _ => .counted 1 0),
    .acknowledge ⟨1, 2, true, 9, 5, "a known renewal"⟩]

theorem ruleTwice_unsettled : ¬ ∀ events s, run Store.step .init events = some s →
    ∀ row ∈ s.reports, Settles s row := by
  intro h
  have hrun : (run Store.step .init ruleTwice).map (fun s => s.reports.map fun row =>
      (row.results.map fun x => (x.outcome, decide (Acknowledged s row x.rule_id)),
        s.unacknowledgedWarnings row)) = some [([(.warn, true), (.warn, true)], 1)] := by
    decide
  obtain ⟨s, hs, heq⟩ := Option.map_eq_some_iff.mp hrun
  obtain ⟨row, hrow, hpair⟩ := List.mem_map.mp (heq ▸ List.mem_singleton_self _)
  obtain ⟨hresults, hleft⟩ := Prod.mk.inj hpair
  have hzero := (h ruleTwice s hs row hrow).done fun x hx _ => by
    have hmem : (x.outcome, decide (Acknowledged s row x.rule_id)) ∈
        [(RuleOutcome.warn, true), (.warn, true)] := by
      rw [← hresults]
      exact List.mem_map_of_mem hx
    have hboth : x.outcome = .warn ∧ Acknowledged s row x.rule_id := by simpa using hmem
    exact hboth.2
  omega

end Runs

end GiPricing.Validation
