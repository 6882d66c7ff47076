import GiPricing.Failure.Except
import GiPricing.Text.Char
import GiPricing.Transition.Run
import GiPricing.Transition.Table
import Mathlib.Data.List.MinMax

/-! # The validation gate

A Dataset Version is validated by a job that runs its Dataset's Rule Set and stores a report. An
actuary acknowledges the warnings and promotes the version on a report.
-/

namespace GiPricing.Validation

open Failure

abbrev UUID := ℕ

inductive DatasetStatus
  | draft
  | validating
  | validated
  | failed
  | archived
  deriving DecidableEq

def validDatasetTransitions : DatasetStatus → List DatasetStatus
  | .draft => [.validating, .archived]
  | .validating => [.validated, .failed, .draft]
  | .validated => [.validating, .archived]
  | .failed => [.validating, .archived]
  | .archived => []

inductive Severity
  | warn
  | fail
  deriving DecidableEq

inductive RuleOutcome
  | pass
  | warn
  | fail
  | error
  | skipped
  deriving DecidableEq

inductive OverallOutcome
  | pass
  | passWithWarnings
  | fail
  | error
  deriving DecidableEq

/-! ## The tables -/

structure DatasetVersionRow where
  id : UUID
  workspace_id : UUID
  dataset_id : UUID
  version : ℕ
  status : DatasetStatus
  validation_report_id : Option UUID
  parent_id : Option UUID

structure ValidationRuleRow where
  id : UUID
  workspace_id : UUID
  slug : String
  version : ℕ
  severity : Severity
  status : String
  dry_run_report_id : Option UUID

structure RuleSetMember where
  rule_id : UUID
  enabled : Bool
  severity_override : Option Severity

structure ValidationRuleSetRow where
  id : UUID
  workspace_id : UUID
  dataset_id : UUID
  slug : String
  version : ℕ
  members : List RuleSetMember

structure RuleResult where
  rule_id : UUID
  severity : Severity
  outcome : RuleOutcome

/-- What a job read when it ran: nothing in the source reads it. -/
inductive Ran
  | ruleSet (row : ValidationRuleSetRow) (rules : List ValidationRuleRow)
  | dryRun (rule : ValidationRuleRow)

def Ran.isRuleSet : Ran → Bool
  | .ruleSet .. => true
  | .dryRun _ => false

structure ValidationReportRow where
  id : UUID
  workspace_id : UUID
  dataset_version_id : UUID
  rule_set_id : UUID
  rule_set_version : ℕ
  overall : OverallOutcome
  fail_count : ℕ
  warn_count : ℕ
  error_count : ℕ
  results : List RuleResult
  ran : Ran

structure AcknowledgementRow where
  workspace_id : UUID
  dataset_version_id : UUID
  report_id : UUID
  rule_id : UUID
  user_id : UUID
  justification : String

/-- A rule's membership of a set; an override may only raise the severity. -/
structure RuleSetEntry where
  rule : ValidationRuleRow
  enabled : Bool
  severity_override : Option Severity
  raises : ¬ (severity_override = some .warn ∧ rule.severity = .fail)

def RuleSetEntry.effectiveSeverity (entry : RuleSetEntry) : Severity :=
  entry.severity_override.getD entry.rule.severity

structure ValidationRuleSet where
  id : UUID
  version : ℕ
  entries : List RuleSetEntry

def ValidationRuleSet.enabledEntries (ruleSet : ValidationRuleSet) : List RuleSetEntry :=
  ruleSet.entries.filter (·.enabled)

/-- A job between its read of the rule set and its write of the report. -/
structure Running where
  job_id : UUID
  workspace_id : UUID
  version_id : UUID
  dry_run_rule_id : Option UUID
  rule_set : ValidationRuleSet
  ran : Ran

structure Store where
  versions : List DatasetVersionRow
  rules : List ValidationRuleRow
  rule_sets : List ValidationRuleSetRow
  /-- In the order of their writes. -/
  reports : List ValidationReportRow
  acknowledgements : List AcknowledgementRow
  running : List Running

inductive ValidationError
  | permissionDenied
  | versionNotFound
  | reportNotFound
  | ruleNotFound
  | noRuleSet (dataset_id : UUID)
  | rulesMissing (rule_ids : List UUID)
  | ruleNotApproved (rule_ids : List UUID)
  | severityDowngrade (slugs : List String)
  | overrideLowers (slug : String)
  | invalidTransition (current target : DatasetStatus)
  | validatedIsNotATransition
  | hasFailures
  | reportRequired
  | warnNotAcknowledged (outstanding : ℕ)
  | otherVersion (dataset_version_id : UUID)
  | reasonRequired
  | justificationRequired
  | ruleNotInReport (rule_id : UUID)
  | onlyWarnings (outcome : RuleOutcome)
  | alreadyAcknowledged
  | ruleVersionImmutable (slug : String) (version : ℕ)

namespace Store

/-! ## Versions -/

def version? (s : Store) (workspace_id version_id : UUID) : Option DatasetVersionRow :=
  s.versions.find? fun v => v.id = version_id ∧ v.workspace_id = workspace_id

def report? (s : Store) (workspace_id report_id : UUID) : Option ValidationReportRow :=
  s.reports.find? fun r => r.id = report_id ∧ r.workspace_id = workspace_id

def rule? (s : Store) (workspace_id rule_id : UUID) : Option ValidationRuleRow :=
  s.rules.find? fun r => r.id = rule_id ∧ r.workspace_id = workspace_id

def put (s : Store) (row : DatasetVersionRow) : Store :=
  { s with versions := s.versions.map fun v => if v.id = row.id then row else v }

/-- `new_version`: the next version of a dataset, in draft. -/
def newVersion (s : Store) (id workspace_id dataset_id : UUID) : Store :=
  let previous := (s.versions.filter (·.dataset_id = dataset_id)).argmax (·.version)
  { s with versions := s.versions ++ [{
      id := id
      workspace_id := workspace_id
      dataset_id := dataset_id
      version := (previous.elim 0 (·.version)) + 1
      status := .draft
      validation_report_id := none
      parent_id := previous.map (·.id) }] }

/-- `_transition`: the status with the fields that go with it. -/
def moveTo (s : Store) (workspace_id version_id : UUID) (to_status : DatasetStatus)
    (also_set : DatasetVersionRow → DatasetVersionRow) : Except ValidationError Store := do
  let row ← require (s.version? workspace_id version_id) .versionNotFound
  ensure (to_status ∈ validDatasetTransitions row.status) (.invalidTransition row.status to_status)
  return s.put { also_set row with status := to_status }

def transition (s : Store) (workspace_id version_id : UUID) (to_status : DatasetStatus) :
    Except ValidationError Store := do
  ensure (to_status ≠ .validated) .validatedIsNotATransition
  s.moveTo workspace_id version_id to_status id

def archiveVersion (s : Store) (workspace_id version_id : UUID) (reason : String) :
    Except ValidationError Store := do
  ensure (isBlank reason = false) .reasonRequired
  s.moveTo workspace_id version_id .archived id

/-! ## Promotion -/

def promoteToValidated (s : Store) (workspace_id version_id report_id : UUID)
    (report_passed : Bool) (unacknowledged_warnings : ℕ) : Except ValidationError Store := do
  ensure (report_passed = true) .hasFailures
  ensure (unacknowledged_warnings = 0) (.warnNotAcknowledged unacknowledged_warnings)
  s.moveTo workspace_id version_id .validated fun row => { row with
    validation_report_id := some report_id }

def unacknowledgedWarnings (s : Store) (row : ValidationReportRow) : ℕ :=
  row.warn_count - (s.acknowledgements.filter (·.report_id = row.id)).length

def promoteUsingReport (s : Store) (workspace_id version_id report_id : UUID) :
    Except ValidationError Store := do
  let row ← require (s.report? workspace_id report_id) .reportNotFound
  ensure (row.dataset_version_id = version_id) (.otherVersion row.dataset_version_id)
  s.promoteToValidated workspace_id version_id report_id
    (row.overall = .pass ∨ row.overall = .passWithWarnings) (s.unacknowledgedWarnings row)

/-- The body of a transition request, and its caller. -/
structure Transition where
  workspace_id : UUID
  permitted : Bool
  version_id : UUID
  to_status : DatasetStatus
  report_id : Option UUID
  reason : Option String

/-- The transition route. -/
def transitionRoute (s : Store) (c : Transition) : Except ValidationError Store := do
  ensure (c.permitted = true) .permissionDenied
  let _ ← require (s.version? c.workspace_id c.version_id) .versionNotFound
  match c.to_status with
  | .validated =>
    let report_id ← require c.report_id .reportRequired
    s.promoteUsingReport c.workspace_id c.version_id report_id
  | .archived => s.archiveVersion c.workspace_id c.version_id (c.reason.getD "")
  | to_status => s.transition c.workspace_id c.version_id to_status

/-! ## Acknowledgements -/

structure Acknowledge where
  workspace_id : UUID
  user_id : UUID
  permitted : Bool
  report_id : UUID
  rule_id : UUID
  justification : String

def acknowledge (s : Store) (c : Acknowledge) : Except ValidationError Store := do
  ensure (isBlank c.justification = false) .justificationRequired
  let row ← require (s.report? c.workspace_id c.report_id) .reportNotFound
  ensure (c.permitted = true) .permissionDenied
  let target ← require (row.results.find? (·.rule_id = c.rule_id)) (.ruleNotInReport c.rule_id)
  ensure (target.outcome = .warn) (.onlyWarnings target.outcome)
  ensure (∀ a ∈ s.acknowledgements, a.report_id = c.report_id → a.rule_id ≠ c.rule_id)
    .alreadyAcknowledged
  return { s with acknowledgements := s.acknowledgements ++ [
    ⟨c.workspace_id, row.dataset_version_id, c.report_id, c.rule_id, c.user_id, c.justification⟩] }

/-! ## Rule sets -/

/-- Every rule exists and is approved. -/
def requireRunnableMembers (s : Store) (workspace_id : UUID) (members : List RuleSetMember) :
    Except ValidationError PUnit := do
  let missing := (members.map (·.rule_id)).filter fun id => (s.rule? workspace_id id).isNone
  ensure (missing = []) (.rulesMissing missing)
  let unapproved := (members.map (·.rule_id)).filter fun id =>
    (s.rule? workspace_id id).any fun r => r.status ≠ "approved"
  ensure (unapproved = []) (.ruleNotApproved unapproved)

structure ReplaceRuleSet where
  id : UUID
  workspace_id : UUID
  permitted : Bool
  dataset_id : UUID
  slug : String
  members : List RuleSetMember

/-- `replace_rule_set`: the next version of the set. -/
def replaceRuleSet (s : Store) (c : ReplaceRuleSet) : Except ValidationError Store := do
  ensure (c.permitted = true) .permissionDenied
  s.requireRunnableMembers c.workspace_id c.members
  let lowered := c.members.filterMap fun m => (s.rule? c.workspace_id m.rule_id).bind fun r =>
    if m.severity_override = some .warn ∧ r.severity = .fail then some r.slug else none
  ensure (lowered = []) (.severityDowngrade lowered)
  let latest := (s.rule_sets.filter fun q =>
    q.workspace_id = c.workspace_id ∧ q.slug = c.slug).argmax (·.version)
  return { s with rule_sets := s.rule_sets ++ [
    ⟨c.id, c.workspace_id, c.dataset_id, c.slug, 1 + latest.elim 0 (·.version), c.members⟩] }

def latestRuleSetRow (s : Store) (workspace_id dataset_id : UUID) : Option ValidationRuleSetRow :=
  (s.rule_sets.filter fun q => q.workspace_id = workspace_id ∧ q.dataset_id = dataset_id).argmax
    (·.version)

/-- One entry of a set with the rule it names. -/
def toEntry (rule : ValidationRuleRow) (enabled : Bool) (severity_override : Option Severity) :
    Except ValidationError RuleSetEntry :=
  if h : severity_override = some .warn ∧ rule.severity = .fail then .error (.overrideLowers rule.slug)
  else .ok ⟨rule, enabled, severity_override, h⟩

/-- `rule_set_to_run`: the dataset's current set, refused unless every member exists and is
approved. -/
def ruleSetToRun (s : Store) (workspace_id dataset_id : UUID) :
    Except ValidationError (ValidationRuleSet × ValidationRuleSetRow) := do
  let row ← require (s.latestRuleSetRow workspace_id dataset_id) (.noRuleSet dataset_id)
  s.requireRunnableMembers workspace_id row.members
  let entries ← row.members.mapM fun m => do
    let rule ← require (s.rule? workspace_id m.rule_id) (.rulesMissing [m.rule_id])
    toEntry rule m.enabled m.severity_override
  return (⟨row.id, row.version, entries⟩, row)

/-! ## The job -/

/-- How a check ended: it raised or ran out of its budget, skipped, or counted rows. -/
inductive Checked
  | raised
  | skipped
  | counted (violating tolerated : ℕ)

/-- `_run_one`. -/
def runOne (entry : RuleSetEntry) (checked : Checked) : RuleResult :=
  { rule_id := entry.rule.id
    severity := entry.effectiveSeverity
    outcome := match checked with
      | .raised => .error
      | .skipped => .skipped
      | .counted violating tolerated =>
        if violating ≤ tolerated then .pass
        else match entry.effectiveSeverity with
          | .warn => .warn
          | .fail => .fail }

/-- `run_validation`: one result for each enabled entry. -/
def runValidation (ruleSet : ValidationRuleSet) (checked : ℕ → Checked) : List RuleResult :=
  ruleSet.enabledEntries.mapIdx fun i entry => runOne entry (checked i)

def overallOutcome (results : List RuleResult) : OverallOutcome :=
  if .fail ∈ results.map (·.outcome) then .fail
  else if .error ∈ results.map (·.outcome) then .error
  else if .warn ∈ results.map (·.outcome) then .passWithWarnings
  else .pass

def countOf (results : List RuleResult) (outcome : RuleOutcome) : ℕ :=
  (results.map (·.outcome)).count outcome

structure Validate where
  job_id : UUID
  workspace_id : UUID
  version_id : UUID
  dry_run_rule_id : Option UUID

/-- The first half of `_validate`: the version and the rule set it runs. -/
def load (s : Store) (c : Validate) : Except ValidationError Running := do
  let version ← require (s.version? c.workspace_id c.version_id) .versionNotFound
  match c.dry_run_rule_id with
  | some rule_id =>
    let rule ← require (s.rule? c.workspace_id rule_id) .ruleNotFound
    let entry ← toEntry rule true none
    return ⟨c.job_id, c.workspace_id, c.version_id, c.dry_run_rule_id,
      ⟨rule.id, rule.version, [entry]⟩, .dryRun rule⟩
  | none =>
    let (ruleSet, row) ← s.ruleSetToRun c.workspace_id version.dataset_id
    return ⟨c.job_id, c.workspace_id, c.version_id, none, ruleSet, .ruleSet row s.rules⟩

def beginValidation (s : Store) (workspace_id version_id : UUID) : Except ValidationError Store := do
  let row ← require (s.version? workspace_id version_id) .versionNotFound
  if row.status = .validating then return s
  else s.moveTo workspace_id version_id .validating id

def concludeFailedValidation (s : Store) (workspace_id version_id : UUID) :
    Except ValidationError Store := do
  let row ← require (s.version? workspace_id version_id) .versionNotFound
  if row.validation_report_id = none then s.moveTo workspace_id version_id .failed id
  else s.moveTo workspace_id version_id .draft fun row => { row with validation_report_id := none }

def reportOf (job : Running) (report_id : UUID) (results : List RuleResult) : ValidationReportRow :=
  { id := report_id
    workspace_id := job.workspace_id
    dataset_version_id := job.version_id
    rule_set_id := job.rule_set.id
    rule_set_version := job.rule_set.version
    overall := overallOutcome results
    fail_count := countOf results .fail
    warn_count := countOf results .warn
    error_count := countOf results .error
    results := results
    ran := job.ran }

def storeReport (s : Store) (row : ValidationReportRow) : Except ValidationError Store := do
  let _ ← require (s.version? row.workspace_id row.dataset_version_id) .versionNotFound
  return { s with reports := s.reports ++ [row] }

def attachDryRun (s : Store) (workspace_id rule_id report_id : UUID) :
    Except ValidationError Store := do
  let row ← require (s.rule? workspace_id rule_id) .ruleNotFound
  ensure (row.status ≠ "approved") (.ruleVersionImmutable row.slug row.version)
  return { s with rules := s.rules.map fun r =>
    if r.id = row.id then { r with dry_run_report_id := some report_id } else r }

def permitsValidation (row : ValidationReportRow) : Prop :=
  row.overall = .pass ∨ row.overall = .passWithWarnings

instance (row : ValidationReportRow) : Decidable (permitsValidation row) :=
  inferInstanceAs (Decidable (_ ∨ _))

/-- The second half of `_validate`, in one unit of work. -/
def store (s : Store) (job : Running) (report_id : UUID) (checked : ℕ → Checked) :
    Except ValidationError Store := do
  let row := reportOf job report_id (runValidation job.rule_set checked)
  match job.dry_run_rule_id with
  | some rule_id =>
    let s ← s.storeReport row
    s.attachDryRun job.workspace_id rule_id report_id
  | none =>
    let s ← s.beginValidation job.workspace_id job.version_id
    let s ← s.storeReport row
    if permitsValidation row then return s
    else s.concludeFailedValidation job.workspace_id job.version_id

end Store

/-! ## Runs -/

inductive Event
  | newVersion (id workspace_id dataset_id : UUID)
  /-- A rule is written, by its own lifecycle. -/
  | putRule (row : ValidationRuleRow)
  | replaceRuleSet (c : Store.ReplaceRuleSet)
  | load (c : Store.Validate)
  | store (job_id report_id : UUID) (checked : ℕ → Store.Checked)
  | transition (c : Store.Transition)
  | acknowledge (c : Store.Acknowledge)

namespace Store

def init : Store := ⟨[], [], [], [], [], []⟩

/-- A refused call is rolled back. -/
def committed (s : Store) : Except ValidationError Store → Store
  | .ok s' => s'
  | .error _ => s

/-- One call or one half of a job; new rows have new ids. -/
def step (s : Store) : Event → Option Store
  | .newVersion id workspace_id dataset_id =>
    if ∀ v ∈ s.versions, v.id ≠ id then some (s.newVersion id workspace_id dataset_id) else none
  | .putRule row => some { s with rules := s.rules.filter (·.id ≠ row.id) ++ [row] }
  | .replaceRuleSet c => some (s.committed (s.replaceRuleSet c))
  | .load c => some (s.committed ((s.load c).map fun job =>
      { s with running := s.running ++ [job] }))
  | .store job_id report_id checked =>
    if ∀ r ∈ s.reports, r.id ≠ report_id then
      (s.running.find? (·.job_id = job_id)).map fun job =>
        { s.committed (s.store job report_id checked) with
          running := s.running.filter (·.job_id ≠ job_id) }
    else none
  | .transition c => some (s.committed (s.transitionRoute c))
  | .acknowledge c => some (s.committed (s.acknowledge c))

end Store

end GiPricing.Validation
