import GiPricing.Classify.Slices
import GiPricing.Ladder.Basic
import GiPricing.Merge.Keyed
import GiPricing.Rating.Inline

/-! # Dislocation runs

Two scored passes over one portfolio, the frame of their differences by policy, and its summary.
Ratios are exact; the summary's are rounded once.
-/

namespace GiPricing.Dislocation

open Classify Decimal

/-! ## The frame -/

inductive Level
  | null
  | int (value : ℤ)
  | bool (value : Bool)
  | date (year month day : ℕ)
  | text (value : String)
  deriving DecidableEq

/-- A policy's row of a scored batch: a quoted one has a ladder that names each rung once. -/
inductive BatchOutcome
  | quoted (ladder : List LadderRung) (distinct : (ladder.map LadderRung.rung).Nodup)
  | declined
  | error (code : String)

inductive RowOutcome
  | quoted
  | declined
  | error
  deriving DecidableEq, Repr

/-- A ladder by rung: the rounded value and the exact one. -/
abbrev RungValues := LadderRungName → Option (ℤ × Option ℚ)

/-- `_rung_values`. -/
def rungValues (ladder : List LadderRung) : RungValues := fun n =>
  (Merge.byKey LadderRung.rung ladder n).map fun r => (r.valueMinor, r.unrounded)

structure PassRow where
  outcome : RowOutcome
  errorCode : Option String
  minor : Option ℤ
  rungs : RungValues

structure FrameRow where
  quoteId : String
  baselineOutcome : RowOutcome
  candidateOutcome : RowOutcome
  baselineMinor : Option ℤ
  candidateMinor : Option ℤ
  changeMinor : Option ℤ
  baselineErrorCode : Option String
  candidateErrorCode : Option String
  originRung : Option LadderRungName
  exposureYears : ℚ
  columns : List (String × Level)

/-- What the validator accepts: edges that increase, a positive threshold and distinct segments. -/
structure DislocationSpec where
  segments : List String
  bandEdgesPct : List ℚ
  moverThresholdPct : ℚ
  edges_ne : bandEdgesPct ≠ []
  segments_nodup : segments.Nodup
  edges_increase : bandEdgesPct.IsChain (· < ·)
  threshold_pos : 0 < moverThresholdPct

namespace FrameRow

variable (r : FrameRow)

def change : ℤ := r.changeMinor.getD 0

def baseline : ℤ := r.baselineMinor.getD 0

def candidate : ℤ := r.candidateMinor.getD 0

def level (factor : String) : Level := (r.columns.lookup factor).getD .null

def isCompared : Bool := r.baselineOutcome = .quoted && r.candidateOutcome = .quoted

def pct : ℚ := (r.change : ℚ) / r.baseline * 100

end FrameRow

/-- `_compared`. -/
def compared (frame : List FrameRow) : List FrameRow := frame.filter FrameRow.isCompared

/-- `_banded`: the compared policies with a positive baseline. -/
def banded (frame : List FrameRow) : List FrameRow := (compared frame).filter fun r => 0 < r.baseline

def roundedTo (places : ℕ) (ratio : ℚ) : ℚ := roundInt .halfEven (ratio * 10 ^ places) / 10 ^ places

/-- `_pct`. -/
def pctOf (change baseline : ℤ) : Option ℚ :=
  if baseline = 0 then none else some (roundedTo 2 (change / baseline * 100))

/-- `_share`. -/
def shareOf (part whole : ℚ) : Option ℚ := if whole = 0 then none else some (roundedTo 6 (part / whole))

structure GroupStats where
  policies : ℕ
  change : ℤ
  baseline : ℤ
  exposure : ℚ

/-- `_group_stats`. -/
def groupStats (rows : List FrameRow) : GroupStats :=
  ⟨rows.length, (rows.map FrameRow.change).sum, (rows.map FrameRow.baseline).sum,
    (rows.map FrameRow.exposureYears).sum⟩

structure DislocationOutcomes where
  quotedBoth : ℕ
  quotedToDeclined : ℕ
  declinedToQuoted : ℕ
  declinedBoth : ℕ
  error : ℕ
  zeroBaseline : ℕ
  negativeBaseline : ℕ

/-- The banded policies of each band, the band of a policy the number of edges its change reaches. -/
def bandMembers (frame : List FrameRow) (spec : DislocationSpec) : List (List FrameRow) :=
  (List.range (spec.bandEdgesPct.length + 1)).map
    (slice (fun r => rank spec.bandEdgesPct r.pct) (banded frame))

structure DislocationBand where
  policies : ℕ
  exposureShare : Option ℚ
  meanChangePct : Option ℚ

def distribution (frame : List FrameRow) (spec : DislocationSpec) : List DislocationBand :=
  (bandMembers frame spec).map fun group =>
    let stats := groupStats group
    ⟨stats.policies, shareOf stats.exposure (groupStats (banded frame)).exposure,
      pctOf stats.change stats.baseline⟩

/-- The order of a column's levels, the null level last. -/
def Level.le : Level → Level → Bool
  | .null, .null => true
  | .null, _ => false
  | _, .null => true
  | .int a, .int b => a ≤ b
  | .bool a, .bool b => !a || b
  | .date y m d, .date y' m' d' => y < y' || (y = y' && (m < m' || (m = m' && d ≤ d')))
  | .text a, .text b => a ≤ b
  | .int _, _ => true
  | .bool _, .int _ => false
  | .bool _, _ => true
  | .date .., .text _ => true
  | .date .., _ => false
  | .text _, _ => false

def levels (frame : List FrameRow) (factor : String) : List Level :=
  (((compared frame).map (·.level factor)).dedup).insertionSort fun a b => a.le b = true

structure SegmentSlice where
  factor : String
  level : Level
  policies : ℕ
  meanChangePct : Option ℚ
  exposureShare : Option ℚ

def segmentMembers (frame : List FrameRow) (factor : String) (level : Level) : List FrameRow :=
  slice (·.level factor) (compared frame) level

def bySegment (frame : List FrameRow) (spec : DislocationSpec) : List SegmentSlice :=
  spec.segments.flatMap fun factor => (levels frame factor).map fun level =>
    let stats := groupStats (segmentMembers frame factor level)
    ⟨factor, level, stats.policies, pctOf stats.change stats.baseline,
      shareOf stats.exposure (groupStats (compared frame)).exposure⟩

structure RungContribution where
  rung : LadderRungName
  contributionPct : Option ℚ

structure ErrorTally where
  code : String
  count : ℕ
  sample : List String

/-- The code a row is tallied under: the baseline's where that pass errored. -/
def errorCode (r : FrameRow) : String :=
  (if r.baselineOutcome = .error then r.baselineErrorCode else r.candidateErrorCode).getD ""

structure DislocationRun where
  policyCount : ℕ
  exposureYears : ℚ
  baselinePremiumMinor : ℤ
  candidatePremiumMinor : ℤ
  changePct : Option ℚ
  outcomes : DislocationOutcomes
  distribution : List DislocationBand
  bySegment : List SegmentSlice
  byLadderRung : List RungContribution
  errors : List ErrorTally

end GiPricing.Dislocation
