import GiPricing.Comparison.Measures
import GiPricing.Failure.Lists
import GiPricing.Order.Winner

/-! # Comparing models

Fitted models on one holdout: their measures side by side, a leader for each measure, and the double
lift of each against a baseline. The differences of relativities are left out.
-/

namespace GiPricing.Comparison

open Failure GiPricing.Order

attribute [local instance] Numerals.two Numerals.three

variable {K R S : Type} [Field K] [LinearOrder K]

/-! ## The table -/

inductive Metric | ae_overall | gini | gini_normalised | holdout_deviance | rows
  deriving DecidableEq

inductive MetricDirection
  | higher_is_better | lower_is_better | closer_to_one_is_better | not_ordered
  deriving DecidableEq

namespace Metric

def all : List Metric := [.ae_overall, .gini, .gini_normalised, .holdout_deviance, .rows]

def direction : Metric → MetricDirection
  | ae_overall => .closer_to_one_is_better
  | gini => .higher_is_better
  | gini_normalised => .higher_is_better
  | holdout_deviance => .lower_is_better
  | rows => .not_ordered

end Metric

structure Figures (K : Type) where
  ae_overall : Option (Reading K)
  gini : Reading K
  gini_normalised : Reading K
  holdout_deviance : Reading K
  rows : Reading K

instance : Inhabited (Figures K) := ⟨⟨none, none, none, none, none⟩⟩

def Figures.figure (f : Figures K) : Metric → Option (Reading K)
  | .ae_overall => f.ae_overall
  | .gini => some f.gini
  | .gini_normalised => some f.gini_normalised
  | .holdout_deviance => some f.holdout_deviance
  | .rows => some f.rows

structure ComparisonMetric (K : Type) where
  metric : Metric
  weighting : Weighting
  direction : MetricDirection
  values : List (String × Option (Reading K))
  leader : Option String

/-- `_leader` -/
def leader (values : List (String × Option (Reading K))) (direction : MetricDirection) : Option String :=
  let scored := values.filterMap fun v => v.2.map fun x => (v.1, x)
  match direction with
  | .not_ordered => none
  | .higher_is_better => winner (fun x y => y.lt x) Reading.same scored
  | .lower_is_better => winner Reading.lt Reading.same scored
  | .closer_to_one_is_better =>
    winner Reading.lt Reading.same (scored.map fun v => (v.1, Reading.abs (v.2.sub (some 1))))

/-- `_family`: the power that the spec of a linear model declares. -/
def family (spec : ModelSpec K S) : Except Refusal (Family × K) :=
  match spec.arm with
  | .glm family power _ => .ok (family, power.getD (3 / 2))
  | .gbm objective power => objectiveFamily spec.response objective power

/-! ## Double lift -/

structure DoubleLiftBin (K : Type) where
  bin : ℕ
  rows : ℕ
  actual : Reading K
  baseline_predicted : Reading K
  challenger_predicted : Reading K
  exposure_years : Reading K

structure DoubleLift (K : Type) where
  baseline_ref : String
  challenger_ref : String
  weighting : Weighting
  bins : List (DoubleLiftBin K)

/-- `_BINS` -/
def lift_bins : ℕ := 10

/-- The rows that a mask keeps, as one bin. -/
def liftBin (num : Elementary K) (actual exposure baseline_mu challenger_mu : List (Reading K)) (bin : ℕ)
    (mask : List Bool) : DoubleLiftBin K :=
  let rows := mask.count true
  let bin_exposure := Reading.sum (select mask exposure)
  let divisor := if Reading.lt (some 0) bin_exposure then bin_exposure else some (rows : K)
  { bin := bin
    rows := rows
    actual := Reading.div (Reading.sum (select mask actual)) divisor
    baseline_predicted := Reading.div (Reading.sum (select mask baseline_mu)) divisor
    challenger_predicted := Reading.div (Reading.sum (select mask challenger_mu)) divisor
    exposure_years := bin_exposure.map num.round6 }

def ratios (baseline_mu challenger_mu : List (Reading K)) : List (Reading K) :=
  List.zipWith (fun b c => if Reading.lt (some 0) b then Reading.div c b else some 0)
    baseline_mu challenger_mu

/-- The bins of `_double_lift`. -/
def liftBins (num : Elementary K) (actual exposure baseline_mu challenger_mu : List (Reading K)) :
    List (DoubleLiftBin K) :=
  let bins := binIndex (ratios baseline_mu challenger_mu) lift_bins
  (List.range lift_bins).filterMap fun b =>
    let mask := bins.map fun bin => decide (bin = b + 1)
    if mask.count true = 0 then none
    else some (liftBin num actual exposure baseline_mu challenger_mu (b + 1) mask)

/-! ## The comparison -/

structure ComparisonSummary (K S : Type) where
  model_refs : List String
  baseline_ref : String
  split_ref : S
  holdout_rows : ℕ
  metrics : List (ComparisonMetric K)
  double_lift : List (DoubleLift K)

namespace ComparisonSummary

variable (s : ComparisonSummary K S)

def metric? (m : Metric) : Option (ComparisonMetric K) := s.metrics.find? fun x => x.metric = m

def figure (m : Metric) (ref : String) : Option (Option (Reading K)) :=
  (s.metric? m).bind fun x => x.values.lookup ref

def leaderOf (m : Metric) : Option String := (s.metric? m).bind ComparisonMetric.leader

end ComparisonSummary

/-- `_refuse_an_incomparable_set`, with the first of two or more candidates and the split they cite. -/
def comparable [DecidableEq S] (candidates : List (Candidate R S K)) (holdout : Book R K) :
    Except Refusal (Candidate R S K × S) :=
  match candidates with
  | first :: _ :: _ => do
    ensure (holdout.rows ≠ []) Refusal.modelsNotComparable
    ensure (candidates.map Candidate.ref).Nodup Refusal.modelsNotComparable
    ensure (∀ c ∈ candidates, weighting c.spec = weighting first.spec) Refusal.modelsNotComparable
    ensure (∀ c ∈ candidates, c.spec.response_column = first.spec.response_column)
      Refusal.modelsNotComparable
    let split_ref ← require first.spec.split_ref Refusal.modelsNotComparable
    ensure (∀ c ∈ candidates, c.spec.split_ref = some split_ref) Refusal.modelsNotComparable
    return (first, split_ref)
  | _ => .error .modelsNotComparable

/-- One round of `_metrics`. -/
def figuresOf (num : Elementary K) (holdout : Book R K) (actual exposure : List (Reading K))
    (c : Candidate R S K) (mu : List (Reading K)) : Except Refusal (Figures K) := do
  let (g, normalised) := gini actual mu exposure
  let (family, power) ← family c.spec
  let total ← deviance num actual mu family power (thetaOf c.spec)
  return {
    ae_overall := if Reading.lt (some 0) (expectedTotal c.spec holdout mu) then
      some (actualOverExpected c.spec holdout actual mu) else none
    gini := g
    gini_normalised := normalised
    holdout_deviance := total
    rows := some (actual.length : K) }

/-- `compare_models` -/
def compareModels [DecidableEq S] (num : Elementary K) (candidates : List (Candidate R S K))
    (holdout : Book R K) (baseline : Option String) : Except Refusal (ComparisonSummary K S) := do
  let (first, split_ref) ← comparable candidates holdout
  let baseline_ref := match baseline with
    | some b => if b = "" then first.ref else b
    | none => first.ref
  ensure (baseline_ref ∈ candidates.map Candidate.ref) Refusal.modelsNotComparable
  let scheme := weighting first.spec
  let exposure := weights first.spec holdout
  ensure (first.spec.response_column ∈ holdout.columns)
    (Refusal.columnNotFound first.spec.response_column)
  let actual := holdout.numbers first.spec.response_column
  let predicted ← candidates.mapM fun c => (c.score none holdout).map fun mu => (c.ref, mu)
  let mu_of (ref : String) : List (Reading K) := (predicted.lookup ref).getD []
  let table ← candidates.mapM fun c =>
    (figuresOf num holdout actual exposure c (mu_of c.ref)).map fun f => (c.ref, f)
  return {
    model_refs := candidates.map Candidate.ref
    baseline_ref := baseline_ref
    split_ref := split_ref
    holdout_rows := holdout.rows.length
    metrics := Metric.all.map fun m =>
      let values := table.map fun t => (t.1, t.2.figure m)
      { metric := m
        weighting := scheme
        direction := m.direction
        values := values
        leader := leader values m.direction }
    double_lift := ((candidates.map Candidate.ref).filter (· ≠ baseline_ref)).map fun ref =>
      { baseline_ref := baseline_ref
        challenger_ref := ref
        weighting := scheme
        bins := liftBins num actual exposure (mu_of baseline_ref) (mu_of ref) } }

end GiPricing.Comparison
