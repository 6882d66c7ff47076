import GiPricing.Validation.Gate
import Mathlib.Tactic

/-! # The gate has no bypass

A version is validated by its latest rule-set report where every promotion names that report, and a
version returned by hand to draft or failed names none.
-/

namespace GiPricing.Validation

open Failure Transition

/-! ## The gate -/

def Store.ruleSetReports (s : Store) (version_id : UUID) : List ValidationReportRow :=
  s.reports.filter fun r => r.dataset_version_id = version_id ∧ r.ran.isRuleSet = true

/-- A Rule Set of the version's Dataset ran, each enabled member an approved rule of that time. -/
def RanApproved (s : Store) (version_id rule_set_id : UUID) (rule_set_version : ℕ)
    (rule_ids : List UUID) (ran : Ran) : Prop :=
  ∃ row rules, ran = .ruleSet row rules ∧ row ∈ s.rule_sets ∧
    (∃ v ∈ s.versions, v.id = version_id ∧ v.dataset_id = row.dataset_id) ∧
    rule_set_id = row.id ∧ rule_set_version = row.version ∧
    rule_ids = (row.members.filter (·.enabled)).map (·.rule_id) ∧
    ∀ m ∈ row.members, m.enabled = true → ∃ rule ∈ rules, rule.id = m.rule_id ∧
      rule.status = "approved"

structure Gated (s : Store) (v : DatasetVersionRow) : Prop where
  validated : v.status = .validated → ∃ r, v.validation_report_id = some r.id ∧
    (s.ruleSetReports v.id).getLast? = some r ∧
    RanApproved s v.id r.rule_set_id r.rule_set_version (r.results.map (·.rule_id)) r.ran ∧
    (∀ x ∈ r.results, x.outcome ≠ .fail ∧ x.outcome ≠ .error) ∧
    ∀ x ∈ r.results, x.outcome = .warn →
      ∃ a ∈ s.acknowledgements, a.report_id = r.id ∧ a.rule_id = x.rule_id
  unvalidated : v.status = .draft ∨ v.status = .failed → v.validation_report_id = none

/-- What a running job read. -/
def Loaded (s : Store) (job : Running) : Prop :=
  (job.dry_run_rule_id = none → RanApproved s job.version_id job.rule_set.id job.rule_set.version
    (job.rule_set.enabledEntries.map (·.rule.id)) job.ran) ∧
  (job.dry_run_rule_id ≠ none → job.ran.isRuleSet = false)

/-- What a stored report says of its run. -/
structure Sourced (s : Store) (r : ValidationReportRow) : Prop where
  ran : r.ran.isRuleSet = true → RanApproved s r.dataset_version_id r.rule_set_id r.rule_set_version
    (r.results.map (·.rule_id)) r.ran
  overall : r.overall = Store.overallOutcome r.results
  warn_count : r.warn_count = Store.countOf r.results .warn

/-- What an acknowledgement is about: a warning that its report shows first for the rule. -/
def Warned (s : Store) (a : AcknowledgementRow) : Prop :=
  ∃ r ∈ s.reports, r.id = a.report_id ∧
    ∃ x, r.results.find? (·.rule_id = a.rule_id) = some x ∧ x.outcome = .warn

structure Inv (s : Store) : Prop where
  ids : (s.versions.map (·.id)).Nodup
  reportIds : (s.reports.map (·.id)).Nodup
  sourced : ∀ r ∈ s.reports, Sourced s r
  running : ∀ job ∈ s.running, Loaded s job
  warned : ∀ a ∈ s.acknowledgements, Warned s a
  once : (s.acknowledgements.map fun a => (a.report_id, a.rule_id)).Nodup

/-! ## Counting the warnings -/

theorem acknowledged_nodup {s : Store} (h : Inv s) (report_id : UUID) :
    ((s.acknowledgements.filter (·.report_id = report_id)).map (·.rule_id)).Nodup := by
  have hpairs := h.once.of_map
  refine (List.nodup_map_iff_inj_on (hpairs.filter _)).mpr fun a ha b hb hab => ?_
  rw [List.mem_filter, decide_eq_true_eq] at ha hb
  exact List.inj_on_of_nodup_map h.once ha.1 hb.1 (Prod.ext (ha.2.trans hb.2.symm) hab)

theorem acknowledged_warned {s : Store} (h : Inv s) {r : ValidationReportRow} (hr : r ∈ s.reports)
    {a : AcknowledgementRow} (ha : a ∈ s.acknowledgements) (hid : a.report_id = r.id) :
    ∃ x ∈ r.results, x.rule_id = a.rule_id ∧ x.outcome = .warn := by
  obtain ⟨q, hq, hqa, x, hx, hwarn⟩ := h.warned a ha
  obtain rfl := List.inj_on_of_nodup_map h.reportIds hq hr (hqa.trans hid)
  have hrule := List.find?_some hx
  simp only [decide_eq_true_eq] at hrule
  exact ⟨x, List.mem_of_find?_eq_some hx, hrule, hwarn⟩

theorem warn_count_eq {s : Store} (h : Inv s) {r : ValidationReportRow} (hr : r ∈ s.reports) :
    r.warn_count = (r.results.filter (·.outcome = .warn)).length := by
  rw [(h.sourced r hr).warn_count, Store.countOf, List.count_eq_length_filter, List.filter_map,
    List.length_map]
  congr 1

theorem warnings_acknowledged {s : Store} (h : Inv s) {r : ValidationReportRow} (hr : r ∈ s.reports)
    (hzero : s.unacknowledgedWarnings r = 0) {x : RuleResult} (hx : x ∈ r.results)
    (hwarn : x.outcome = .warn) :
    ∃ a ∈ s.acknowledgements, a.report_id = r.id ∧ a.rule_id = x.rule_id := by
  let warnings := (r.results.filter (·.outcome = .warn)).map (·.rule_id)
  let acknowledged := (s.acknowledgements.filter (·.report_id = r.id)).map (·.rule_id)
  have hsub : acknowledged ⊆ warnings := by
    intro id hid
    obtain ⟨a, ha, rfl⟩ := List.mem_map.mp hid
    rw [List.mem_filter, decide_eq_true_eq] at ha
    obtain ⟨y, hy, hrule, hyw⟩ := acknowledged_warned h hr ha.1 ha.2
    exact List.mem_map.mpr ⟨y, List.mem_filter.mpr ⟨hy, by simpa using hyw⟩, hrule⟩
  have hlength : warnings.length ≤ acknowledged.length := by
    rw [Store.unacknowledgedWarnings, warn_count_eq h hr] at hzero
    simp only [warnings, acknowledged, List.length_map]
    omega
  have hnodup : acknowledged.Nodup := acknowledged_nodup h r.id
  have hperm := (List.subperm_of_subset hnodup hsub).perm_of_length_le hlength
  have hmem : x.rule_id ∈ warnings :=
    List.mem_map_of_mem (List.mem_filter.mpr ⟨hx, by simpa using hwarn⟩)
  obtain ⟨a, ha, hax⟩ := List.mem_map.mp (hperm.mem_iff.mpr hmem)
  rw [List.mem_filter, decide_eq_true_eq] at ha
  exact ⟨a, ha.1, ha.2, hax⟩

theorem permitted_results {r : ValidationReportRow} (hoverall : r.overall = Store.overallOutcome r.results)
    (h : Store.permitsValidation r) : ∀ x ∈ r.results, x.outcome ≠ .fail ∧ x.outcome ≠ .error := by
  rw [Store.permitsValidation, hoverall, Store.overallOutcome] at h
  intro x hx
  have hmem : x.outcome ∈ r.results.map (·.outcome) := List.mem_map_of_mem hx
  split_ifs at h with hfail herror
  · simp at h
  · simp at h
  all_goals exact ⟨fun he => hfail (he ▸ hmem), fun he => herror (he ▸ hmem)⟩

/-! ## What each call does -/

section Calls

variable {s s' : Store} {v v' row : DatasetVersionRow} {workspace_id version_id : UUID}

theorem version_eq_some (hids : (s.versions.map (·.id)).Nodup) :
    s.version? workspace_id version_id = some v ↔
      v ∈ s.versions ∧ v.id = version_id ∧ v.workspace_id = workspace_id :=
  find_eq_some (show (s.versions.map DatasetVersionRow.id).Nodup from hids)

theorem ids_put : (s.put row).versions.map (·.id) = s.versions.map (·.id) := keys_write

theorem mem_put (hv : v ∈ s.versions) (hid : row.id = v.id) {x : DatasetVersionRow} :
    x ∈ (s.put row).versions ↔ x = row ∨ x ∈ s.versions ∧ x.id ≠ v.id :=
  mem_write hv hid

theorem version_put (hids : (s.versions.map (·.id)).Nodup)
    (hv : s.version? workspace_id version_id = some v) (hid : row.id = v.id)
    (hw : row.workspace_id = v.workspace_id) :
    (s.put row).version? workspace_id version_id = some row := by
  obtain ⟨hmem, rfl, rfl⟩ := (version_eq_some hids).mp hv
  exact (version_eq_some (by rwa [ids_put])).mpr ⟨(mem_put hmem hid).mpr (Or.inl rfl), hid, hw⟩

theorem moveTo_eq_ok {to_status : DatasetStatus} {also_set : DatasetVersionRow → DatasetVersionRow} :
    s.moveTo workspace_id version_id to_status also_set = .ok s' ↔
      ∃ row, s.version? workspace_id version_id = some row ∧
        to_status ∈ validDatasetTransitions row.status ∧
        s.put { also_set row with status := to_status } = s' := by
  simp only [Store.moveTo, require_bind_eq_ok, ensure_bind_eq_ok, pure_eq_ok]

/-- An accepted call of the transition route promotes a version on a report, or moves it. -/
theorem transitionRoute_eq_ok {c : Store.Transition} : s.transitionRoute c = .ok s' ↔
    c.permitted = true ∧ ∃ row, s.version? c.workspace_id c.version_id = some row ∧
      c.to_status ∈ validDatasetTransitions row.status ∧
      ((c.to_status = .validated ∧ ∃ report_id r, c.report_id = some report_id ∧
          s.report? c.workspace_id report_id = some r ∧ r.dataset_version_id = c.version_id ∧
          Store.permitsValidation r ∧ s.unacknowledgedWarnings r = 0 ∧
          s.put { row with validation_report_id := some report_id, status := .validated } = s') ∨
        c.to_status ≠ .validated ∧ (c.to_status = .archived → isBlank (c.reason.getD "") = false) ∧
          s.put { row with status := c.to_status } = s') := by
  simp only [Store.transitionRoute, ensure_bind_eq_ok, require_bind_eq_ok]
  refine and_congr_right fun _ => ?_
  constructor
  · rintro ⟨row, hrow, h⟩
    split at h
    · rename_i hto
      simp only [Store.promoteUsingReport, Store.promoteToValidated, require_bind_eq_ok,
        ensure_bind_eq_ok, moveTo_eq_ok, decide_eq_true_eq] at h
      obtain ⟨report_id, hid, r, hr, hver, hpass, hzero, row', hrow', hvalid, rfl⟩ := h
      obtain rfl := Option.some.inj (hrow.symm.trans hrow')
      exact ⟨row, hrow, by rwa [hto], Or.inl ⟨hto, report_id, r, hid, hr, hver, hpass, hzero, rfl⟩⟩
    · rename_i hto
      simp only [Store.archiveVersion, ensure_bind_eq_ok, moveTo_eq_ok] at h
      obtain ⟨hreason, row', hrow', hvalid, rfl⟩ := h
      obtain rfl := Option.some.inj (hrow.symm.trans hrow')
      exact ⟨row, hrow, by rwa [hto], Or.inr ⟨by simp [hto], fun _ => hreason, by rw [hto]; rfl⟩⟩
    · rename_i hnv hna
      simp only [Store.transition, ensure_bind_eq_ok, moveTo_eq_ok] at h
      obtain ⟨hne, row', hrow', hvalid, rfl⟩ := h
      obtain rfl := Option.some.inj (hrow.symm.trans hrow')
      exact ⟨row, hrow, hvalid, Or.inr ⟨hne, fun he => absurd he hna, rfl⟩⟩
  · rintro ⟨row, hrow, hvalid, h⟩
    refine ⟨row, hrow, ?_⟩
    rcases h with ⟨hto, report_id, r, hid, hr, hver, hpass, hzero, rfl⟩ | ⟨hne, hreason, rfl⟩
    · rw [hto] at hvalid ⊢
      simp only [Store.promoteUsingReport, Store.promoteToValidated, require_bind_eq_ok,
        ensure_bind_eq_ok, moveTo_eq_ok, decide_eq_true_eq]
      exact ⟨report_id, hid, r, hr, hver, hpass, hzero, row, hrow, hvalid, rfl⟩
    · split
      · exact absurd (by assumption) hne
      · rename_i hto
        simp only [Store.archiveVersion, ensure_bind_eq_ok, moveTo_eq_ok]
        exact ⟨hreason hto, row, hrow, by rwa [hto] at hvalid, by rw [hto]; rfl⟩
      · simp only [Store.transition, ensure_bind_eq_ok, moveTo_eq_ok]
        exact ⟨hne, row, hrow, hvalid, rfl⟩

inductive Concluded (v : DatasetVersionRow) : DatasetVersionRow → Prop
  | validating : Concluded v { v with status := .validating }
  | failed (hnone : v.validation_report_id = none) : Concluded v { v with status := .failed }
  | draft : Concluded v { v with status := .draft, validation_report_id := none }

/-- What the second half of a job does. -/
inductive Stored (s : Store) (job : Running) (report_id : UUID) (checked : ℕ → Store.Checked) :
    Store → Prop
  | dryRun (rules : List ValidationRuleRow) (hdry : job.dry_run_rule_id ≠ none) :
      Stored s job report_id checked { s with
        rules := rules
        reports := s.reports ++
          [Store.reportOf job report_id (Store.runValidation job.rule_set checked)] }
  | ordinary (v v' : DatasetVersionRow) (hdry : job.dry_run_rule_id = none)
      (hv : s.version? job.workspace_id job.version_id = some v) (hc : Concluded v v') :
      Stored s job report_id checked { s.put v' with
        reports := s.reports ++
          [Store.reportOf job report_id (Store.runValidation job.rule_set checked)] }

theorem storeReport_eq_ok {r : ValidationReportRow} (h : s.storeReport r = .ok s') :
    s' = { s with reports := s.reports ++ [r] } := by
  simp only [Store.storeReport, require_bind_eq_ok, pure_eq_ok] at h
  obtain ⟨-, -, rfl⟩ := h
  rfl

theorem beginValidation_eq_ok (hids : (s.versions.map (·.id)).Nodup)
    (h : s.beginValidation workspace_id version_id = .ok s') :
    ∃ v, s.version? workspace_id version_id = some v ∧ s' = s.put { v with status := .validating } := by
  simp only [Store.beginValidation, require_bind_eq_ok] at h
  obtain ⟨v, hv, h⟩ := h
  refine ⟨v, hv, ?_⟩
  split_ifs at h with hst
  · rw [pure_eq_ok] at h
    have hsame : ({ v with status := .validating } : DatasetVersionRow) = v := by rw [← hst]
    obtain ⟨hmem, -⟩ := (version_eq_some hids).mp hv
    rw [hsame, ← h]
    exact (congrArg (fun vs => { s with versions := vs }) (write_self hids hmem)).symm
  · obtain ⟨row, hrow, -, rfl⟩ := moveTo_eq_ok.mp h
    obtain rfl := Option.some.inj (hv.symm.trans hrow)
    rfl

theorem concludeFailedValidation_eq_ok (h : s.concludeFailedValidation workspace_id version_id = .ok s') :
    ∃ v, s.version? workspace_id version_id = some v ∧
      (v.validation_report_id = none ∧ s' = s.put { v with status := .failed } ∨
        s' = s.put { v with status := .draft, validation_report_id := none }) := by
  simp only [Store.concludeFailedValidation, require_bind_eq_ok] at h
  obtain ⟨v, hv, h⟩ := h
  refine ⟨v, hv, ?_⟩
  split_ifs at h with hnone
  · obtain ⟨row, hrow, -, rfl⟩ := moveTo_eq_ok.mp h
    obtain rfl := Option.some.inj (hv.symm.trans hrow)
    exact Or.inl ⟨hnone, rfl⟩
  · obtain ⟨row, hrow, -, rfl⟩ := moveTo_eq_ok.mp h
    obtain rfl := Option.some.inj (hv.symm.trans hrow)
    exact Or.inr rfl

theorem put_reports (reports : List ValidationReportRow) (h : v'.id = v.id) :
    ({ s.put v with reports := reports } : Store).put v' = { s.put v' with reports := reports } :=
  congrArg (fun vs => { s with versions := vs, reports := reports }) (write_write h)

theorem stored_of_ok (hids : (s.versions.map (·.id)).Nodup) {job : Running} {report_id : UUID}
    {checked : ℕ → Store.Checked} (h : s.store job report_id checked = .ok s') :
    Stored s job report_id checked s' := by
  unfold Store.store at h
  split at h
  · rename_i rule_id hdry
    obtain ⟨t, ht, h⟩ := bind_eq_ok.mp h
    obtain rfl := storeReport_eq_ok ht
    simp only [Store.attachDryRun, require_bind_eq_ok, ensure_bind_eq_ok, pure_eq_ok] at h
    obtain ⟨row, -, -, rfl⟩ := h
    exact .dryRun _ (by simp [hdry])
  · rename_i hdry
    obtain ⟨t, ht, h⟩ := bind_eq_ok.mp h
    obtain ⟨u, hu, h⟩ := bind_eq_ok.mp h
    obtain rfl := storeReport_eq_ok hu
    obtain ⟨v, hv, rfl⟩ := beginValidation_eq_ok hids ht
    split_ifs at h with hpass
    · rw [pure_eq_ok] at h
      subst h
      exact .ordinary v _ hdry hv .validating
    · obtain ⟨v₁, hv₁, h⟩ := concludeFailedValidation_eq_ok h
      have hput : (s.put { v with status := .validating }).version? job.workspace_id
          job.version_id = some { v with status := .validating } := version_put hids hv rfl rfl
      obtain rfl := Option.some.inj (hput.symm.trans hv₁)
      rcases h with ⟨hnone, rfl⟩ | rfl
      · rw [put_reports _ (by exact rfl)]
        exact .ordinary v _ hdry hv (.failed hnone)
      · rw [put_reports _ (by exact rfl)]
        exact .ordinary v _ hdry hv .draft

theorem rule_eq_some {rule_id : UUID} {r : ValidationRuleRow}
    (h : s.rule? workspace_id rule_id = some r) : r ∈ s.rules ∧ r.id = rule_id := by
  have := List.find?_some h
  simp only [decide_eq_true_eq] at this
  exact ⟨List.mem_of_find?_eq_some h, this.1⟩

theorem report_eq_some {report_id : UUID} {r : ValidationReportRow}
    (h : s.report? workspace_id report_id = some r) : r ∈ s.reports ∧ r.id = report_id := by
  have := List.find?_some h
  simp only [decide_eq_true_eq] at this
  exact ⟨List.mem_of_find?_eq_some h, this.1⟩

theorem requireRunnableMembers_eq_ok {members : List RuleSetMember} {u : PUnit}
    (h : s.requireRunnableMembers workspace_id members = .ok u) :
    ∀ m ∈ members, ∃ r, s.rule? workspace_id m.rule_id = some r ∧ r.status = "approved" := by
  simp only [Store.requireRunnableMembers, ensure_bind_eq_ok, ensure_eq_ok] at h
  obtain ⟨hmissing, hunapproved⟩ := h
  intro m hm
  have hid : m.rule_id ∈ members.map (·.rule_id) := List.mem_map_of_mem hm
  have hsome := List.filter_eq_nil_iff.mp hmissing _ hid
  have happroved := List.filter_eq_nil_iff.mp hunapproved _ hid
  cases hr : s.rule? workspace_id m.rule_id with
  | none => simp [hr] at hsome
  | some r => exact ⟨r, rfl, by simpa [hr] using happroved⟩

theorem toEntry_eq_ok {rule : ValidationRuleRow} {enabled : Bool} {severity_override : Option Severity}
    {entry : RuleSetEntry} (h : Store.toEntry rule enabled severity_override = .ok entry) :
    entry.rule = rule ∧ entry.enabled = enabled := by
  unfold Store.toEntry at h
  split_ifs at h
  cases h
  exact ⟨rfl, rfl⟩

theorem enabled_ids {members : List RuleSetMember} {entries : List RuleSetEntry}
    (h : List.Forall₂ (fun (m : RuleSetMember) (e : RuleSetEntry) =>
      e.rule.id = m.rule_id ∧ e.enabled = m.enabled) members entries) :
    (entries.filter (·.enabled)).map (·.rule.id) =
      (members.filter (·.enabled)).map (·.rule_id) := by
  induction h with
  | nil => rfl
  | cons hme _ ih =>
    rw [List.filter_cons, List.filter_cons, hme.2]
    split_ifs
    · rw [List.map_cons, List.map_cons, hme.1, ih]
    · exact ih

theorem ruleSetToRun_eq_ok {dataset_id : UUID} {ruleSet : ValidationRuleSet}
    {row : ValidationRuleSetRow} (h : s.ruleSetToRun workspace_id dataset_id = .ok (ruleSet, row)) :
    row ∈ s.rule_sets ∧ row.dataset_id = dataset_id ∧ ruleSet.id = row.id ∧
      ruleSet.version = row.version ∧ (ruleSet.enabledEntries.map (·.rule.id)) =
        (row.members.filter (·.enabled)).map (·.rule_id) ∧
      ∀ m ∈ row.members, ∃ r ∈ s.rules, r.id = m.rule_id ∧ r.status = "approved" := by
  simp only [Store.ruleSetToRun, require_bind_eq_ok, bind_eq_ok (x := s.requireRunnableMembers _ _),
    bind_eq_ok (x := List.mapM _ _), pure_eq_ok, Prod.mk.injEq] at h
  obtain ⟨q, hq, _, hrun, entries, hentries, rfl, rfl⟩ := h
  obtain ⟨hmem, hin⟩ := List.mem_filter.mp (List.argmax_mem hq)
  simp only [decide_eq_true_eq] at hin
  refine ⟨hmem, hin.2, rfl, rfl, enabled_ids ?_, fun m hm => ?_⟩
  · refine (mapM_eq_ok.mp hentries).imp fun m e he => ?_
    rw [require_bind_eq_ok] at he
    obtain ⟨r, hr, he⟩ := he
    obtain ⟨rfl, hen⟩ := toEntry_eq_ok he
    exact ⟨(rule_eq_some hr).2, hen⟩
  · obtain ⟨r, hr, hst⟩ := requireRunnableMembers_eq_ok hrun m hm
    exact ⟨r, (rule_eq_some hr).1, (rule_eq_some hr).2, hst⟩

theorem loaded_of_ok {c : Store.Validate} {job : Running} (h : s.load c = .ok job) :
    Loaded s job := by
  simp only [Store.load, require_bind_eq_ok] at h
  obtain ⟨v, hv, h⟩ := h
  split at h
  · rename_i rule_id hdry
    simp only [bind_eq_ok, pure_eq_ok] at h
    obtain ⟨rule, -, entry, -, rfl⟩ := h
    exact ⟨fun he => absurd (he.symm.trans hdry) nofun, fun _ => rfl⟩
  · obtain ⟨⟨ruleSet, row⟩, hset, h⟩ := bind_eq_ok.mp h
    rw [pure_eq_ok] at h
    subst h
    obtain ⟨hrow, hds, hid, hver, hids, happroved⟩ := ruleSetToRun_eq_ok hset
    have := List.find?_some hv
    simp only [decide_eq_true_eq] at this
    exact ⟨fun _ => ⟨row, s.rules, rfl, hrow, ⟨v, List.mem_of_find?_eq_some hv, this.1, hds.symm⟩,
      hid, hver, hids, fun m hm _ => happroved m hm⟩, fun hne => absurd rfl hne⟩

end Calls

/-! ## The invariant over a step -/

/-- What every step keeps of the tables. -/
structure Extends (s s' : Store) : Prop where
  versions : ∀ v ∈ s.versions, ∃ v' ∈ s'.versions, v'.id = v.id ∧ v'.dataset_id = v.dataset_id
  rule_sets : s.rule_sets ⊆ s'.rule_sets
  reports : s.reports ⊆ s'.reports
  acknowledgements : s.acknowledgements ⊆ s'.acknowledgements

section Step

variable {s s' : Store} {v v' : DatasetVersionRow} {e : Event}

theorem extends_put (hids : (s.versions.map (·.id)).Nodup) (hv : v ∈ s.versions) (hid : v'.id = v.id) (hd : v'.dataset_id = v.dataset_id) :
    ∀ u ∈ s.versions, ∃ u' ∈ (s.put v').versions, u'.id = u.id ∧ u'.dataset_id = u.dataset_id := by
  intro u hu
  by_cases hne : u.id = v.id
  · obtain rfl := List.inj_on_of_nodup_map hids hu hv hne
    exact ⟨v', (mem_put hv hid).mpr (Or.inl rfl), hid, hd⟩
  · exact ⟨u, (mem_put hv hid).mpr (Or.inr ⟨hu, hne⟩), rfl, rfl⟩

theorem RanApproved.extend {version_id rule_set_id : UUID} {rule_set_version : ℕ}
    {rule_ids : List UUID} {ran : Ran} (hx : Extends s s')
    (h : RanApproved s version_id rule_set_id rule_set_version rule_ids ran) :
    RanApproved s' version_id rule_set_id rule_set_version rule_ids ran := by
  obtain ⟨row, rules, hran, hrow, ⟨v, hv, hid, hds⟩, hrest⟩ := h
  obtain ⟨v', hv', hid', hds'⟩ := hx.versions v hv
  exact ⟨row, rules, hran, hx.rule_sets hrow, ⟨v', hv', hid'.trans hid, hds'.trans hds⟩, hrest⟩

theorem Loaded.extend {job : Running} (hx : Extends s s') (h : Loaded s job) : Loaded s' job :=
  ⟨fun hdry => (h.1 hdry).extend hx, h.2⟩

theorem Sourced.extend {r : ValidationReportRow} (hx : Extends s s') (h : Sourced s r) :
    Sourced s' r :=
  ⟨fun hran => (h.ran hran).extend hx, h.overall, h.warn_count⟩

theorem Warned.extend {a : AcknowledgementRow} (hx : Extends s s') (h : Warned s a) :
    Warned s' a := by
  obtain ⟨r, hr, hrest⟩ := h
  exact ⟨r, hx.reports hr, hrest⟩

theorem Inv.extend (h : Inv s) (hx : Extends s s') (hids : (s'.versions.map (·.id)).Nodup)
    (hreports : (s'.reports.map (·.id)).Nodup)
    (hsourced : ∀ r ∈ s'.reports, r ∈ s.reports ∨ Sourced s' r)
    (hrunning : ∀ job ∈ s'.running, job ∈ s.running ∨ Loaded s' job)
    (hwarned : ∀ a ∈ s'.acknowledgements, a ∈ s.acknowledgements ∨ Warned s' a)
    (honce : (s'.acknowledgements.map fun a => (a.report_id, a.rule_id)).Nodup) : Inv s' where
  ids := hids
  reportIds := hreports
  sourced r hr := (hsourced r hr).elim (fun hr => (h.sourced r hr).extend hx) id
  running job hj := (hrunning job hj).elim (fun hj => (h.running job hj).extend hx) id
  warned a ha := (hwarned a ha).elim (fun ha => (h.warned a ha).extend hx) id
  once := honce

/-- A version whose row and whose rule-set reports stay as they are stays gated. -/
theorem Gated.extend (h : Gated s v) (hx : Extends s s')
    (hreports : s'.ruleSetReports v.id = s.ruleSetReports v.id) : Gated s' v where
  validated hst := by
    obtain ⟨r, hid, hlast, hran, hout, hack⟩ := h.validated hst
    refine ⟨r, hid, by rwa [hreports], hran.extend hx, hout, fun x hxr hwarn => ?_⟩
    obtain ⟨a, ha, hrest⟩ := hack x hxr hwarn
    exact ⟨a, hx.acknowledgements ha, hrest⟩
  unvalidated := h.unvalidated

/-- What a step makes of one version; `reports` are the rule-set reports after it. -/
inductive Moved (s : Store) (e : Event) (reports : UUID → List ValidationReportRow)
    (v' : DatasetVersionRow) : Prop
  | same (hv : v' ∈ s.versions) (hreports : reports v'.id = s.ruleSetReports v'.id)
  | unvalidated (hnone : v'.validation_report_id = none) (hst : v'.status ≠ .validated)
  | pending (hst : v'.status = .validating ∨ v'.status = .archived)
  | returned (c : Store.Transition) (v : DatasetVersionRow) (he : e = .transition c)
      (hpermitted : c.permitted = true)
      (hv : s.version? c.workspace_id c.version_id = some v) (hfrom : v.status = .validating)
      (hto : c.to_status = .draft ∨ c.to_status = .failed)
      (hv' : v' = { v with status := c.to_status })
  | promoted (c : Store.Transition) (v : DatasetVersionRow) (report_id : UUID)
      (r : ValidationReportRow) (he : e = .transition c) (hpermitted : c.permitted = true)
      (hv : s.version? c.workspace_id c.version_id = some v) (hfrom : v.status = .validating)
      (hto : c.to_status = .validated) (hid : c.report_id = some report_id)
      (hr : s.report? c.workspace_id report_id = some r) (hver : r.dataset_version_id = c.version_id)
      (hpass : Store.permitsValidation r) (hzero : s.unacknowledgedWarnings r = 0)
      (hv' : v' = { v with validation_report_id := some report_id, status := .validated })
      (hreports : reports v'.id = s.ruleSetReports v'.id)

/-- What a step keeps, and what it makes of each version. -/
structure Spec (s : Store) (e : Event) (s' : Store) : Prop where
  inv : Inv s'
  extend : Extends s s'
  moved : ∀ v' ∈ s'.versions, Moved s e s'.ruleSetReports v'

theorem Extends.refl (s : Store) : Extends s s :=
  ⟨fun v hv => ⟨v, hv, rfl, rfl⟩, List.Subset.refl _, List.Subset.refl _, List.Subset.refl _⟩

theorem extends_rule_sets (s : Store) (q : ValidationRuleSetRow) :
    Extends s { s with rule_sets := s.rule_sets ++ [q] } :=
  ⟨fun v hv => ⟨v, hv, rfl, rfl⟩, List.subset_append_left _ _, List.Subset.refl _,
    List.Subset.refl _⟩

theorem extends_acknowledgements (s : Store) (a : AcknowledgementRow) :
    Extends s { s with acknowledgements := s.acknowledgements ++ [a] } :=
  ⟨fun v hv => ⟨v, hv, rfl, rfl⟩, List.Subset.refl _, List.Subset.refl _,
    List.subset_append_left _ _⟩

theorem spec_refused (h : Inv s) : Spec s e s := ⟨h, .refl s, fun _ hv => .same hv rfl⟩

theorem spec_newVersion (h : Inv s) {id workspace_id dataset_id : UUID}
    (hid : ∀ v ∈ s.versions, v.id ≠ id) : Spec s e (s.newVersion id workspace_id dataset_id) := by
  have hx : Extends s (s.newVersion id workspace_id dataset_id) :=
    ⟨fun v hv => ⟨v, List.mem_append_left _ hv, rfl, rfl⟩, List.Subset.refl _, List.Subset.refl _,
      List.Subset.refl _⟩
  refine ⟨h.extend hx ?_ h.reportIds (fun _ hr => Or.inl hr) (fun _ hj => Or.inl hj)
    (fun _ ha => Or.inl ha) h.once, hx, fun v' hv' => ?_⟩
  · rw [Store.newVersion, List.map_append, List.nodup_append]
    refine ⟨h.ids, List.nodup_singleton _, fun a ha b hb => ?_⟩
    obtain ⟨v, hv, rfl⟩ := List.mem_map.mp ha
    obtain rfl := List.mem_singleton.mp hb
    exact hid v hv
  · rcases List.mem_append.mp hv' with hv' | hv'
    · exact .same hv' rfl
    · obtain rfl := List.mem_singleton.mp hv'
      exact .unvalidated rfl (by simp)

theorem spec_replaceRuleSet (h : Inv s) {c : Store.ReplaceRuleSet} (hs : s.replaceRuleSet c = .ok s') :
    Spec s e s' := by
  simp only [Store.replaceRuleSet, ensure_bind_eq_ok, bind_eq_ok (x := s.requireRunnableMembers _ _),
    pure_eq_ok] at hs
  obtain ⟨-, -, -, -, rfl⟩ := hs
  refine ⟨h.extend ?hx h.ids h.reportIds (fun _ hr => Or.inl hr) (fun _ hj => Or.inl hj)
    (fun _ ha => Or.inl ha) h.once, ?hx, fun v' hv' => .same hv' rfl⟩
  exact extends_rule_sets s _

theorem spec_load (h : Inv s) {c : Store.Validate} {job : Running} (hs : s.load c = .ok job) :
    Spec s e { s with running := s.running ++ [job] } := by
  have hx : Extends s { s with running := s.running ++ [job] } :=
    ⟨fun v hv => ⟨v, hv, rfl, rfl⟩, List.Subset.refl _, List.Subset.refl _, List.Subset.refl _⟩
  refine ⟨h.extend hx h.ids h.reportIds (fun _ hr => Or.inl hr) (fun j hj => ?_)
    (fun _ ha => Or.inl ha) h.once, hx, fun v' hv' => .same hv' rfl⟩
  rcases List.mem_append.mp hj with hj | hj
  · exact Or.inl hj
  · obtain rfl := List.mem_singleton.mp hj
    exact Or.inr ((loaded_of_ok hs).extend hx)

theorem spec_acknowledge (h : Inv s) {c : Store.Acknowledge} (hs : s.acknowledge c = .ok s') :
    Spec s e s' := by
  simp only [Store.acknowledge, ensure_bind_eq_ok, require_bind_eq_ok, pure_eq_ok] at hs
  obtain ⟨-, r, hr, -, x, hx, hwarn, hnew, rfl⟩ := hs
  obtain ⟨hrm, hrid⟩ := report_eq_some hr
  have hext := extends_acknowledgements s
    ⟨c.workspace_id, r.dataset_version_id, c.report_id, c.rule_id, c.user_id, c.justification⟩
  refine ⟨h.extend hext h.ids h.reportIds (fun _ hr => Or.inl hr) (fun _ hj => Or.inl hj)
    (fun a ha => ?_) ?_, hext, fun v' hv' => .same hv' rfl⟩
  · rcases List.mem_append.mp ha with ha | ha
    · exact Or.inl ha
    · obtain rfl := List.mem_singleton.mp ha
      exact Or.inr ⟨r, hrm, hrid, x, hx, hwarn⟩
  · rw [List.map_append, List.nodup_append]
    refine ⟨h.once, List.nodup_singleton _, fun p hp q hq => ?_⟩
    obtain ⟨a, ha, rfl⟩ := List.mem_map.mp hp
    obtain rfl := List.mem_singleton.mp hq
    exact fun he => hnew a ha (Prod.mk.inj he).1 (Prod.mk.inj he).2

theorem spec_put (h : Inv s) (hv : v ∈ s.versions) (hid : v'.id = v.id)
    (hd : v'.dataset_id = v.dataset_id) (hm : Moved s e s.ruleSetReports v') : Spec s e (s.put v') := by
  have hx : Extends s (s.put v') :=
    ⟨extends_put h.ids hv hid hd, List.Subset.refl _, List.Subset.refl _, List.Subset.refl _⟩
  refine ⟨h.extend hx (by rw [ids_put]; exact h.ids) h.reportIds (fun _ hr => Or.inl hr)
    (fun _ hj => Or.inl hj) (fun _ ha => Or.inl ha) h.once, hx, fun u hu => ?_⟩
  rcases (mem_put hv hid).mp hu with rfl | ⟨hu, -⟩
  · exact hm
  · exact .same hu rfl

theorem spec_transition (h : Inv s) {c : Store.Transition} (hs : s.transitionRoute c = .ok s') :
    Spec s (.transition c) s' := by
  obtain ⟨hpermitted, v, hv, hvalid, hs⟩ := transitionRoute_eq_ok.mp hs
  have hmem := ((version_eq_some h.ids).mp hv).1
  rcases hs with ⟨hto, report_id, r, hid, hr, hver, hpass, hzero, rfl⟩ | ⟨hne, -, rfl⟩
  · have hfrom : v.status = .validating := by
      revert hvalid
      rw [hto]
      cases v.status <;> simp [validDatasetTransitions]
    exact spec_put h hmem rfl rfl
      (.promoted c v report_id r rfl hpermitted hv hfrom hto hid hr hver hpass hzero rfl rfl)
  · refine spec_put h hmem rfl rfl ?_
    cases hto : c.to_status with
    | validated => exact absurd hto hne
    | validating => exact .pending (Or.inl rfl)
    | archived => exact .pending (Or.inr rfl)
    | draft =>
      refine .returned c v rfl hpermitted hv ?_ (Or.inl hto) (by rw [hto])
      revert hvalid
      rw [hto]
      cases v.status <;> simp [validDatasetTransitions]
    | failed =>
      refine .returned c v rfl hpermitted hv ?_ (Or.inr hto) (by rw [hto])
      revert hvalid
      rw [hto]
      cases v.status <;> simp [validDatasetTransitions]

theorem runValidation_ids (ruleSet : ValidationRuleSet) (checked : ℕ → Store.Checked) :
    (Store.runValidation ruleSet checked).map (·.rule_id) =
      ruleSet.enabledEntries.map (·.rule.id) := by
  refine List.ext_getElem (by simp [Store.runValidation]) fun i _ _ => ?_
  simp [Store.runValidation, Store.runOne]

theorem ruleSetReports_append {r : ValidationReportRow} {version_id : UUID} (hreports : s'.reports = s.reports ++ [r])
    (hr : r.ran.isRuleSet = false ∨ r.dataset_version_id ≠ version_id) :
    s'.ruleSetReports version_id = s.ruleSetReports version_id := by
  rw [Store.ruleSetReports, hreports, List.filter_append]
  rcases hr with hr | hr <;> simp [hr, Store.ruleSetReports]

theorem sourced_reportOf {job : Running} (hjob : Loaded s job) (report_id : UUID)
    (checked : ℕ → Store.Checked) :
    Sourced s (Store.reportOf job report_id (Store.runValidation job.rule_set checked)) where
  ran hran := by
    have hdry : job.dry_run_rule_id = none := by
      by_contra hne
      exact absurd (hran.symm.trans (hjob.2 hne)) (by decide)
    have := hjob.1 hdry
    rw [← runValidation_ids job.rule_set checked] at this
    exact this
  overall := rfl
  warn_count := rfl

theorem inv_store (h : Inv s) {job : Running} {report_id : UUID} {checked : ℕ → Store.Checked}
    (hjob : Loaded s job) (hfresh : ∀ r ∈ s.reports, r.id ≠ report_id) (hx : Extends s s')
    (hids : (s'.versions.map (·.id)).Nodup)
    (hreports : s'.reports = s.reports ++
      [Store.reportOf job report_id (Store.runValidation job.rule_set checked)])
    (hrunning : s'.running = s.running) (hacks : s'.acknowledgements = s.acknowledgements) :
    Inv s' := by
  refine h.extend hx hids ?_ (fun r hr => ?_) (fun j hj => Or.inl (hrunning ▸ hj))
    (fun a ha => Or.inl (hacks ▸ ha)) (by rw [hacks]; exact h.once)
  · rw [hreports, List.map_append, List.nodup_append]
    refine ⟨h.reportIds, List.nodup_singleton _, fun a ha b hb => ?_⟩
    obtain ⟨r, hr, rfl⟩ := List.mem_map.mp ha
    obtain rfl := List.mem_singleton.mp hb
    exact hfresh r hr
  · rw [hreports] at hr
    rcases List.mem_append.mp hr with hr | hr
    · exact Or.inl hr
    · obtain rfl := List.mem_singleton.mp hr
      exact Or.inr ((sourced_reportOf hjob report_id checked).extend hx)

theorem spec_store (h : Inv s) {job : Running} {report_id : UUID} {checked : ℕ → Store.Checked}
    (hjob : Loaded s job) (hfresh : ∀ r ∈ s.reports, r.id ≠ report_id)
    (hs : Stored s job report_id checked s') : Spec s e s' := by
  cases hs with
  | dryRun rules hdry =>
    refine ⟨inv_store h hjob hfresh ?hx h.ids rfl rfl rfl, ?hx, fun v' hv' =>
      .same hv' (ruleSetReports_append rfl (Or.inl (hjob.2 hdry)))⟩
    exact ⟨fun v hv => ⟨v, hv, rfl, rfl⟩, List.Subset.refl _, List.subset_append_left _ _,
      List.Subset.refl _⟩
  | ordinary v v' hdry hv hc =>
    obtain ⟨hmem, hvid, -⟩ := (version_eq_some h.ids).mp hv
    have hid : v'.id = v.id := by cases hc <;> rfl
    have hd : v'.dataset_id = v.dataset_id := by cases hc <;> rfl
    refine ⟨inv_store h hjob hfresh ?hy (ids_put.symm ▸ h.ids) rfl rfl rfl, ?hy, fun u hu => ?_⟩
    · exact ⟨extends_put h.ids hmem hid hd, List.Subset.refl _, List.subset_append_left _ _,
        List.Subset.refl _⟩
    · rcases (mem_put hmem hid).mp hu with rfl | ⟨hu, hne⟩
      · cases hc with
        | validating => exact .pending (Or.inl rfl)
        | failed hnone => exact .unvalidated hnone (by simp)
        | draft => exact .unvalidated rfl (by simp)
      · exact .same hu (ruleSetReports_append rfl (Or.inr fun he => hne (he.symm.trans hvid.symm)))

theorem Spec.ended (h : Spec s e s') (hi : Inv s) {running : List Running}
    (hsub : running ⊆ s.running) : Spec s e { s' with running := running } := by
  have hx : Extends s { s' with running := running } :=
    ⟨h.extend.versions, h.extend.rule_sets, h.extend.reports, h.extend.acknowledgements⟩
  refine ⟨h.inv.extend ?hy h.inv.ids h.inv.reportIds (fun _ hr => Or.inl hr)
    (fun job hj => Or.inr ((hi.running job (hsub hj)).extend hx)) (fun _ ha => Or.inl ha)
    h.inv.once, hx, h.moved⟩
  exact ⟨fun v hv => ⟨v, hv, rfl, rfl⟩, List.Subset.refl _, List.Subset.refl _, List.Subset.refl _⟩

theorem spec_of_step (h : Inv s) (hs : s.step e = some s') : Spec s e s' := by
  cases e with
  | newVersion id workspace_id dataset_id =>
    simp only [Store.step] at hs
    split_ifs at hs with hid
    cases hs
    exact spec_newVersion h hid
  | putRule row =>
    cases hs
    refine ⟨h.extend ?hx h.ids h.reportIds (fun _ hr => Or.inl hr) (fun _ hj => Or.inl hj)
      (fun _ ha => Or.inl ha) h.once, ?hx, fun v' hv' => .same hv' rfl⟩
    exact ⟨fun v hv => ⟨v, hv, rfl, rfl⟩, List.Subset.refl _, List.Subset.refl _, List.Subset.refl _⟩
  | replaceRuleSet c =>
    simp only [Store.step] at hs
    rcases hr : s.replaceRuleSet c with r | t <;> rw [hr] at hs <;> cases hs
    · exact spec_refused h
    · exact spec_replaceRuleSet h hr
  | load c =>
    simp only [Store.step] at hs
    rcases hl : s.load c with r | job <;> rw [hl] at hs <;> cases hs
    · exact spec_refused h
    · exact spec_load h hl
  | store job_id report_id checked =>
    simp only [Store.step] at hs
    split_ifs at hs with hfresh
    obtain ⟨job, hjob, rfl⟩ := Option.map_eq_some_iff.mp hs
    have hspec : Spec s (.store job_id report_id checked)
        (s.committed (s.store job report_id checked)) := by
      rcases ht : s.store job report_id checked with r | t
      · exact spec_refused h
      · exact spec_store h (h.running job (List.mem_of_find?_eq_some hjob)) hfresh
          (stored_of_ok h.ids ht)
    exact hspec.ended h (List.filter_subset_self _)
  | transition c =>
    simp only [Store.step] at hs
    rcases ht : s.transitionRoute c with r | t <;> rw [ht] at hs <;> cases hs
    · exact spec_refused h
    · exact spec_transition h ht
  | acknowledge c =>
    simp only [Store.step] at hs
    rcases ha : s.acknowledge c with r | t <;> rw [ha] at hs <;> cases hs
    · exact spec_refused h
    · exact spec_acknowledge h ha

end Step

/-! ## Runs -/

/-- A version is returned by hand to draft or failed only where it names no report, and promoted
only on its latest rule-set report. -/
def InOrder (s : Store) : Event → Prop
  | .transition c => c.permitted = true → ∀ v, s.version? c.workspace_id c.version_id = some v →
      v.status = .validating →
        (c.to_status = .draft ∨ c.to_status = .failed → v.validation_report_id = none) ∧
        (c.to_status = .validated → ∀ report_id r, c.report_id = some report_id →
          s.report? c.workspace_id report_id = some r → r.dataset_version_id = c.version_id →
          Store.permitsValidation r → s.unacknowledgedWarnings r = 0 →
          (s.ruleSetReports v.id).getLast? = some r)
  | _ => True

section Runs

variable {s s' : Store} {e : Event} {v' : DatasetVersionRow}

/-- A step in order leaves each version gated. -/
theorem Spec.gated (h : Spec s e s') (hi : Inv s) (hg : ∀ v ∈ s.versions, Gated s v)
    (hin : InOrder s e) : ∀ v' ∈ s'.versions, Gated s' v' := by
  intro v' hv'
  cases h.moved v' hv' with
  | same hv hreports => exact (hg v' hv).extend h.extend hreports
  | unvalidated hnone hst => exact ⟨fun he => absurd he hst, fun _ => hnone⟩
  | pending hst => exact ⟨fun he => by simp [he] at hst, fun he => by rcases hst with hst | hst <;>
      simp [hst] at he⟩
  | returned c v he hpermitted hv hfrom hto heq =>
    subst he heq
    have hnone := (hin hpermitted v hv hfrom).1 hto
    exact ⟨fun he => by rcases hto with hto | hto <;> simp [hto] at he, fun _ => hnone⟩
  | promoted c v report_id r he hpermitted hv hfrom hto hid hr hver hpass hzero heq hreports =>
    subst he heq
    obtain ⟨hrm, rfl⟩ := report_eq_some hr
    obtain ⟨hvm, hvid, -⟩ := (version_eq_some hi.ids).mp hv
    have hlast := (hin hpermitted v hv hfrom).2 hto r.id r hid hr hver hpass hzero
    have hran := (List.mem_filter.mp (List.mem_of_getLast? hlast)).2
    simp only [decide_eq_true_eq] at hran
    refine ⟨fun _ => ⟨r, rfl, hreports ▸ hlast, ?_, ?_, fun x hx hwarn => ?_⟩, fun he => ?_⟩
    · have := ((hi.sourced r hrm).ran hran.2).extend h.extend
      rwa [hran.1] at this
    · exact permitted_results (hi.sourced r hrm).overall hpass
    · obtain ⟨a, ha, hrest⟩ := warnings_acknowledged hi hrm hzero hx hwarn
      exact ⟨a, h.extend.acknowledgements ha, hrest⟩
    · simp at he

/-- A step out of order leaves a version that is not. -/
theorem inOrder_of_gated (hi : Inv s) (hs : s.step e = some s') (hg : ∀ v' ∈ s'.versions, Gated s' v') :
    InOrder s e := by
  cases e with
  | transition c =>
    intro hpermitted v hv hfrom
    have hvm := ((version_eq_some hi.ids).mp hv).1
    have hcommit : ∀ t, s.transitionRoute c = .ok t → t = s' := fun t ht => by
      simp only [Store.step, ht] at hs
      exact Option.some.inj hs
    refine ⟨fun hto => ?_, fun hto report_id r hid hr hver hpass hzero => ?_⟩
    · have ht := hcommit _ (transitionRoute_eq_ok.mpr ⟨hpermitted, v, hv,
        by rcases hto with hto | hto <;> simp [hto, hfrom, validDatasetTransitions],
        Or.inr ⟨by rcases hto with hto | hto <;> simp [hto],
          by rcases hto with hto | hto <;> simp [hto], rfl⟩⟩)
      have hmem : ({ v with status := c.to_status } : DatasetVersionRow) ∈ s'.versions := by
        rw [← ht]
        exact (mem_put hvm (by exact rfl)).mpr (Or.inl rfl)
      exact (hg _ hmem).unvalidated hto
    · have ht := hcommit _ (transitionRoute_eq_ok.mpr ⟨hpermitted, v, hv,
        by simp [hto, hfrom, validDatasetTransitions],
        Or.inl ⟨hto, report_id, r, hid, hr, hver, hpass, hzero, rfl⟩⟩)
      have hmem : ({ v with
          validation_report_id := some report_id, status := .validated } : DatasetVersionRow) ∈
            s'.versions := by
        rw [← ht]
        exact (mem_put hvm (by exact rfl)).mpr (Or.inl rfl)
      obtain ⟨q, hq, hlast, -⟩ := (hg _ hmem).validated rfl
      have hlast' : (s.ruleSetReports v.id).getLast? = some q := by
        rw [← ht] at hlast
        exact hlast
      obtain ⟨hrm, hrid⟩ := report_eq_some hr
      have hqm := List.mem_of_mem_filter (List.mem_of_getLast? hlast')
      rw [hlast', List.inj_on_of_nodup_map hi.reportIds hqm hrm
        ((Option.some.inj hq).symm.trans hrid.symm)]
  | _ => trivial

theorem init_inv : Inv .init where
  ids := List.nodup_nil
  reportIds := List.nodup_nil
  sourced _ hr := nomatch hr
  running _ hj := nomatch hj
  warned _ ha := nomatch ha
  once := List.nodup_nil

/-- Every version is gated after every step of a run exactly where the run is in order. -/
theorem gated_iff (events : List Event) :
    Always Store.step (fun _ _ s' => ∀ v' ∈ s'.versions, Gated s' v') .init events ↔
      Always Store.step (fun s e _ => InOrder s e) .init events := by
  have hiff : ∀ s e s', (Inv s ∧ ∀ v ∈ s.versions, Gated s v) → s.step e = some s' →
      ((∀ v' ∈ s'.versions, Gated s' v') ↔ InOrder s e) := fun s e s' hi hs =>
    ⟨inOrder_of_gated hi.1 hs, (spec_of_step hi.1 hs).gated hi.1 hi.2⟩
  exact always_congr (fun s e s' hi hs hg => ⟨(spec_of_step hi.1 hs).inv, hg⟩) hiff
    ⟨init_inv, fun _ hv => nomatch hv⟩ events

/-- A version promoted on the dry run of a single rule. -/
def promotedOnDryRun : List Event :=
  [.newVersion 1 1 1, .putRule ⟨5, 1, "not-null", 1, .fail, "draft", none⟩,
    .load ⟨7, 1, 1, some 5⟩, .store 7 9 fun _ => .counted 0 0,
    .transition ⟨1, true, 1, .validating, none, none⟩]

theorem dryRun_promotes :
    ¬ ∀ events, Always Store.step (fun _ _ s' => ∀ v' ∈ s'.versions, Gated s' v') .init events := by
  intro h
  let promote : Event := .transition ⟨1, true, 1, .validated, some 9, none⟩
  have hrun : (run Store.step .init promotedOnDryRun).bind (fun s => (s.step promote).map
      fun s' => (s'.versions.map (·.status), s'.rule_sets.length)) =
      some ([.validated], 0) := by decide
  obtain ⟨s, hs, hstep⟩ := Option.bind_eq_some_iff.mp hrun
  obtain ⟨s', hs', heq⟩ := Option.map_eq_some_iff.mp hstep
  obtain ⟨hstatus, hnone⟩ := Prod.mk.inj heq
  have hgated := (h (promotedOnDryRun ++ [promote])).last hs hs'
  obtain ⟨v, hv, hst⟩ : ∃ v ∈ s'.versions, v.status = .validated :=
    List.mem_map.mp (by rw [hstatus]; exact List.mem_singleton_self _)
  obtain ⟨r, -, -, ⟨row, rules, -, hrow, -⟩, -⟩ := (hgated v hv).validated hst
  rw [List.length_eq_zero_iff.mp hnone] at hrow
  cases hrow

end Runs

end GiPricing.Validation
