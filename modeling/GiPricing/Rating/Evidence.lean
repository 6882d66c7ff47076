import GiPricing.Governance.Approvals

/-! # The evidence of a Rating Version

A submission runs one gate for each kind of evidence that the policy requires, and writes what
the gates found over the evidence stored with the version.
-/

namespace GiPricing.RatingVersions

open Failure Governance

inductive RatingVersionStatus
  | draft
  | review
  | approved
  | live
  | retired
  deriving DecidableEq

inductive ModelReferenceMode
  | exact
  | approximation
  deriving DecidableEq

inductive EvidenceKey
  | golden_quotes
  | structural_diff_blob
  | regression_suite_run_id
  | no_baseline
  | dislocation_run_id
  | approximation_check
  deriving DecidableEq

inductive EvidenceValue
  | not_checked (reason : String)
  | checked (suite : Governance.ArtifactRef) (suite_content_hash bundle_hash : String)
      (results : List String)
  | blob (sha256 : String)
  | run (id : UUID)
  | reason (text : String)
  | approximation (dislocation_run_id : UUID) (quantile : String) (observed maximum : ℚ)
      (fidelity_statements : List String)
  deriving DecidableEq

abbrev Evidence := EvidenceKey → Option EvidenceValue

def Evidence.empty : Evidence := fun _ => none

def Evidence.single (key : EvidenceKey) (value : EvidenceValue) : Evidence := fun k =>
  if k = key then some value else none

def Evidence.update (old new : Evidence) : Evidence := fun k => (new k).or (old k)

structure RatingVersionRow where
  slug : String
  version : ℕ
  status : RatingVersionStatus
  algorithm_ref : Option Governance.ArtifactRef
  model_reference_mode : ModelReferenceMode
  /-- The content hash of the compiled bundle. -/
  bundle : Option String
  evidence : Option Evidence
  change_summary : Option String
  approval_request_id : Option UUID

def RatingVersionRow.ref (row : RatingVersionRow) : Governance.ArtifactRef :=
  { type := "rating_version", slug := row.slug, version := row.version }

/-! ## The policy -/

structure ApproximationDeviation where
  quantile_key : String
  max_abs_change_pct : ℚ

def defaultApproximationDeviation : ApproximationDeviation :=
  { quantile_key := "0.99", max_abs_change_pct := 10 }

def defaultDislocationBaselineEnvironment : String := "prod"

structure RatingVersionEntry where
  evidence : List String
  approximation_deviation : Option ApproximationDeviation
  dislocation_baseline_environment : Option String

/-- The evidence every submission of a Rating Version shows, whatever the policy says. -/
def evidenceFloor : List String := ["structural_diff", "regression_run", "dislocation_run"]

def effectiveEvidence (entry : Option RatingVersionEntry) : List String :=
  evidenceFloor ++ (entry.elim [] fun e => e.evidence.filter (· ∉ evidenceFloor))

/-! ## What the gates read -/

structure Suite where
  slug : String
  version : ℕ
  content_hash : String
  golden_quotes : List String

structure RegressionRun where
  id : UUID
  bundle_hash : String
  suite_content_hash : String
  passed : Bool

structure DislocationRun where
  id : UUID
  candidate_ref : Governance.ArtifactRef
  candidate_bundle_hash : String
  baseline_ref : Governance.ArtifactRef
  abs_change_pct_quantiles : Option (List (String × ℚ))

inductive Refusal
  | permissionDenied
  | notDraft (status : RatingVersionStatus)
  | immutable (status : RatingVersionStatus)
  | notInReview (status : RatingVersionStatus)
  | compileFailed (detail : String)
  | compileBeforeSubmitting
  | otherBundle (recorded loaded : String)
  | goldenQuoteMismatch (failed : List String)
  | evidenceIncomplete (why : String)
  | changeSummaryRequired
  | noPolicy
  | alreadyUnderReview
  deriving DecidableEq

/-- The workspace as a submission finds it, with the runs in the order they were made. What
re-scores a quote and what renders a diff are the rating engine's. -/
structure Workspace where
  may_submit : Bool
  current_suite_for_algorithm : String → Option Suite
  load_compiled : Governance.ArtifactRef → Except Refusal String
  /-- Whether the bundle reproduces the golden quote. -/
  reproduces : String → String → Bool
  regression_runs : List RegressionRun
  live_rating_version_ref : String → Option Governance.ArtifactRef
  /-- The most recently approved other version of an algorithm. -/
  approved_version : String → Option Governance.ArtifactRef
  dislocation_runs : List DislocationRun
  /-- The saved Rating Algorithm. -/
  saved_algorithm : Governance.ArtifactRef → Option String
  /-- The Rating Algorithm of a version of the workspace. -/
  algorithm_of : Governance.ArtifactRef → Except Refusal (Option String)
  /-- The blob of the structural diff of two algorithms. -/
  structural_diff : Option String → String → String
  approximation_fidelity_statements : Except Refusal (List String)
  entry : Option RatingVersionEntry
  under_review : Bool
  request_id : UUID

variable (w : Workspace) (row : RatingVersionRow) (summary : String)

/-! ## The gates -/

def goldenQuoteGate : Except Refusal EvidenceValue :=
  match row.algorithm_ref with
  | none => .ok (.not_checked "no_algorithm_ref")
  | some algorithm =>
    match w.current_suite_for_algorithm algorithm.slug with
    | none => .ok (.not_checked "no_suite_for_algorithm")
    | some suite => do
      let recorded ← require row.bundle .compileBeforeSubmitting
      let loaded ← w.load_compiled row.ref
      ensure (loaded = recorded) (.otherBundle recorded loaded)
      let failed := suite.golden_quotes.filter fun quote => !w.reproduces loaded quote
      ensure (failed = []) (.goldenQuoteMismatch failed)
      return .checked { type := "regression_suite", slug := suite.slug, version := suite.version }
        suite.content_hash loaded suite.golden_quotes

def structuralDiffGate (baseline : Option Governance.ArtifactRef) : Except Refusal String := do
  let candidate ← require (row.algorithm_ref.bind w.saved_algorithm)
    (.evidenceIncomplete "a version with no saved Rating Algorithm has no structural diff")
  let previous ← match baseline with
    | none => .ok none
    | some ref => w.algorithm_of ref
  return w.structural_diff previous candidate

def regressionRunGate (golden_quotes : EvidenceValue) : Except Refusal UUID :=
  match golden_quotes with
  | .checked _ suite_hash _ (_ :: _) => do
    let latest ← require (w.regression_runs.reverse.find? fun run =>
        some run.bundle_hash = row.bundle ∧ run.suite_content_hash = suite_hash)
      (.evidenceIncomplete "no Regression Run exists for this version's current bundle")
    ensure (latest.passed = true) (.evidenceIncomplete "the latest Regression Run failed")
    return latest.id
  | _ => .error
    (.evidenceIncomplete "a Regression Suite with at least one golden quote is required")

/-- The version that a submission is compared with, and why that one. -/
def dislocationBaseline : Option Governance.ArtifactRef × String :=
  let environment := (w.entry.bind RatingVersionEntry.dislocation_baseline_environment).getD
    defaultDislocationBaselineEnvironment
  match w.live_rating_version_ref environment with
  | some live => (some live, "live:" ++ environment)
  | none =>
    match row.algorithm_ref.bind fun algorithm => w.approved_version algorithm.slug with
    | some approved => (some approved, "approved")
    | none => (none, "first_version")

def latestRunFor (baseline : Governance.ArtifactRef) : Option DislocationRun :=
  w.dislocation_runs.reverse.find? fun run => run.candidate_ref = row.ref ∧
    some run.candidate_bundle_hash = row.bundle ∧ run.baseline_ref = baseline

def dislocationGate : Option Governance.ArtifactRef → Except Refusal (Option UUID)
  | none => .ok none
  | some baseline => do
    let latest ← require (latestRunFor w row baseline)
      (.evidenceIncomplete "no Dislocation Run of this version against the baseline")
    return some latest.id

def approximationGate : Except Refusal (Option EvidenceValue) :=
  match row.model_reference_mode with
  | .exact => .ok none
  | .approximation => do
    let statements ← w.approximation_fidelity_statements
    let threshold := (w.entry.bind RatingVersionEntry.approximation_deviation).getD
      defaultApproximationDeviation
    let latest ← require (latestRunFor w row row.ref)
      (.evidenceIncomplete "no Dislocation Run against the version's own exact-mode twin")
    let observed ← require
      (latest.abs_change_pct_quantiles.bind (List.lookup threshold.quantile_key))
      (.evidenceIncomplete "the Dislocation Run has no figure at the quantile")
    ensure (observed ≤ threshold.max_abs_change_pct)
      (.evidenceIncomplete "the absolute percentage change is above the policy's maximum")
    return some (.approximation latest.id threshold.quantile_key observed
      threshold.max_abs_change_pct statements)

/-! ## The submission -/

/-- What verifies a kind of evidence, and records it. -/
def verifiers (golden_quotes : EvidenceValue) : String → Option (Except Refusal Evidence)
  | "structural_diff" => some do
    let blob ← structuralDiffGate w row (dislocationBaseline w row).1
    return .single .structural_diff_blob (.blob blob)
  | "regression_run" => some do
    let run_id ← regressionRunGate w row golden_quotes
    return .single .regression_suite_run_id (.run run_id)
  | "dislocation_run" => some do
    match ← dislocationGate w row (dislocationBaseline w row).1 with
    | none => return .single .no_baseline (.reason (dislocationBaseline w row).2)
    | some run_id => return .single .dislocation_run_id (.run run_id)
  | "change_summary" => some do
    ensure (¬ isBlank summary) (.evidenceIncomplete "the summary is blank")
    return .empty
  | "gipp_check_if_enabled" => some (.ok .empty)
  | "rate_table_diffs" => some (.error (.evidenceIncomplete "no rate-table diff is persisted yet"))
  | _ => none

/-- The required kinds in order, each verified and recorded over those before it. -/
def recordKinds (golden_quotes : EvidenceValue) : List String → Evidence → Except Refusal Evidence
  | [], recorded => .ok recorded
  | kind :: kinds, recorded => do
    let verify ← require (verifiers w row summary golden_quotes kind)
      (.evidenceIncomplete ("the approval policy requires " ++ kind ++
        ", which this build cannot verify"))
    recordKinds golden_quotes kinds (recorded.update (← verify))

/-- What the gates of one submission record. -/
def verifiedEvidence : Except Refusal Evidence := do
  ensure (w.may_submit = true) .permissionDenied
  ensure (row.status = .draft) (.notDraft row.status)
  let golden_quotes ← goldenQuoteGate w row
  let recorded ← recordKinds w row summary golden_quotes (effectiveEvidence w.entry) .empty
  let approximation_check ← approximationGate w row
  return ((Evidence.single .golden_quotes golden_quotes).update recorded).update
    (approximation_check.elim .empty (.single .approximation_check))

/-- The approval request that governance opens. -/
def openRequest : Except Refusal UUID := do
  ensure (¬ isBlank summary) .changeSummaryRequired
  let _ ← require w.entry .noPolicy
  ensure (w.under_review = false) .alreadyUnderReview
  return w.request_id

/-- `submit_for_review`: the row as the session holds it at the end, and the result. -/
def submitForReview : RatingVersionRow × Except Refusal UUID :=
  match verifiedEvidence w row summary with
  | .error e => (row, .error e)
  | .ok written =>
    let row' := { row with
      evidence := some ((row.evidence.getD .empty).update written)
      change_summary := some summary }
    match openRequest w summary with
    | .error e => (row', .error e)
    | .ok request =>
      ({ row' with status := .review, approval_request_id := some request }, .ok request)

/-- The unit of work around a request: nothing of a failed one is stored. -/
def unitOfWork (result : RatingVersionRow × Except Refusal UUID) : RatingVersionRow :=
  match result.2 with
  | .ok _ => result.1
  | .error _ => row

/-! ## Compiling and deciding -/

def compileRatingVersion (compiled : Except Refusal String) : Except Refusal RatingVersionRow := do
  ensure (row.status = .draft) (.immutable row.status)
  let content_hash ← compiled
  return { row with bundle := some content_hash }

def targetStatus : ApprovalStatus → Option RatingVersionStatus
  | .approved => some .approved
  | .changesRequested => some .draft
  | .rejected => some .draft
  | .withdrawn => some .draft
  | _ => none

def applyApprovalDecision (request_status : ApprovalStatus) : Except Refusal RatingVersionRow :=
  match targetStatus request_status with
  | none => .ok row
  | some target =>
    if target = .draft ∧ row.status = .draft then .ok row
    else do
      ensure (row.status = .review) (.notInReview row.status)
      return { row with status := target }

end GiPricing.RatingVersions
