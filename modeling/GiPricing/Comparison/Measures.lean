import GiPricing.Failure.Except
import GiPricing.Numeric.Readings
import GiPricing.Order.Rankings
import Mathlib

/-! # The measures of a model

What a fitted model is measured by on a frame: its deviance, its actual over expected and its Gini, with
the weights that its spec declares. The holdout diagnostics of a model are taken without the rows of
weight zero. The residuals of a partition are left out.
-/

namespace GiPricing.Comparison

open Failure GiPricing.Order

attribute [local instance] Numerals.two Numerals.three Numerals.ten

variable {K R S : Type} [Field K] [LinearOrder K]

/-! ## Specs -/

inductive Weighting | exposure | claim_count | count
  deriving DecidableEq

inductive ResponseKind | claim_count | claim_severity | burning_cost | conversion | retention
  deriving DecidableEq

inductive Family
  | poisson | negative_binomial | gamma | inverse_gaussian | tweedie | binomial | gaussian
  deriving DecidableEq

/-- A column offset names its column, and so does a column weight. -/
inductive OffsetSpec
  | none
  | log_column (column : String)
  | column (column : String)
  | model
  deriving DecidableEq

inductive WeightSpec
  | none
  | column (column : String)
  deriving DecidableEq

inductive ObjectiveSpec
  | builtin (name : String)
  | custom
  deriving DecidableEq

/-- What a linear model and a boosted one say of their deviance. -/
inductive Arm (K : Type)
  | glm (family : Family) (power theta : Option K)
  | gbm (objective : ObjectiveSpec) (tweedie_variance_power : Option K)

structure ModelSpec (K S : Type) where
  response_column : String
  response : Option ResponseKind
  offset : OffsetSpec
  weight : WeightSpec
  split_ref : Option S
  arm : Arm K

inductive Refusal
  | columnNotFound (column : String)
  | modelsNotComparable
  | objectiveResponseUndeclared
  | thetaUndeclared
  | negativeDeviance
  | negativeRatio
  | notScored

/-- A frame, and the numbers that its columns hold, none at a null. -/
structure Book (R K : Type) where
  columns : List String
  rows : List R
  cell : String → R → Reading K

namespace Book

def numbers (data : Book R K) (column : String) : List (Reading K) := data.rows.map (data.cell column)

def ones (data : Book R K) : List (Reading K) := data.rows.map fun _ => some 1

end Book

/-- `_weighting` -/
def weighting (spec : ModelSpec K S) : Weighting :=
  match spec.offset, spec.weight with
  | .log_column _, _ => .exposure
  | .column _, _ => .exposure
  | _, .column _ => .claim_count
  | _, _ => .count

namespace OffsetSpec

def column? : OffsetSpec → Option String
  | log_column c => some c
  | column c => some c
  | _ => Option.none

end OffsetSpec

namespace WeightSpec

def column? : WeightSpec → Option String
  | column c => some c
  | none => Option.none

end WeightSpec

def declared (data : Book R K) (column : Option String) : Option String :=
  column.filter fun c => c ∈ data.columns

/-- `ae_weights` -/
def aeWeights (spec : ModelSpec K S) (data : Book R K) : List (Reading K) :=
  match declared data spec.weight.column? with
  | some c => data.numbers c
  | none => data.ones

/-- `_weights` -/
def weights (spec : ModelSpec K S) (data : Book R K) : List (Reading K) :=
  match declared data spec.offset.column? with
  | some c => data.numbers c
  | none => aeWeights spec data

/-! ## The weight rule -/

structure WeightExclusion (R K : Type) where
  data : Book R K
  keep : List Bool
  excluded : ℕ
  excluded_unknown : Option ℕ

def select {α : Type} (mask : List Bool) (l : List α) : List α :=
  ((mask.zip l).filter Prod.fst).map Prod.snd

def WeightExclusion.take (e : WeightExclusion R K) (array : List (Reading K)) : List (Reading K) :=
  if array.length ≠ e.keep.length then array else select e.keep array

/-- `_exclude` -/
def exclude (data : Book R K) (keep : List Bool) (spec : ModelSpec K S) : WeightExclusion R K :=
  let null := (data.numbers spec.response_column).map Option.isNone
  let severity := spec.response = some .claim_severity ∧ spec.response_column ∈ data.columns
  let kept := if severity then List.zipWith (fun k n => k && !n) keep null else keep
  { data := if kept.all id then data else { data with rows := select kept data.rows }
    keep := kept
    excluded := keep.count false
    excluded_unknown :=
      if severity then some ((List.zipWith (fun k n => k && n) keep null).count true) else none }

/-- `drop_zero_weight_rows`: a weight that is not a number is not zero. -/
def dropZeroWeightRows (data : Book R K) (spec : ModelSpec K S) : WeightExclusion R K :=
  match declared data spec.weight.column? with
  | some c => exclude data ((data.numbers c).map fun w => !w.same (some 0)) spec
  | none => exclude data (data.rows.map fun _ => true) spec

/-! ## Deviance -/

/-- The functions that figures are computed with, the least positive float and the normal quantile. -/
structure Elementary (K : Type) where
  log : K → Reading K
  power : K → K → Reading K
  sqrt : K → Reading K
  round6 : K → K
  tiny : K
  normal_975 : K

/-- A Gaussian deviance takes no logarithm and no power, and a frame without levels no root. -/
def exactNumbers : Elementary ℚ := ⟨fun _ => none, fun _ _ => none, fun _ => none, id, 1 / 2 ^ 1022, 1959963984540054 / 10 ^ 15⟩

theorem toOption_eq_some {ε α : Type} {x : Except ε α} {a : α} : x.toOption = some a ↔ x = .ok a := by
  cases x <;> simp [Except.toOption]

section Deviance

variable (num : Elementary K)

open Reading

/-- The deviance of one row. Theta is declared where a family needs it. -/
def unitDeviance (family : Family) (power : K) (theta : K) (y mu : Reading K) : Reading K :=
  let log (x : Reading K) : Reading K := x.bind num.log
  let pow (x : Reading K) (p : K) : Reading K := x.bind fun a => num.power a p
  let eps : Reading K := some num.tiny
  let safe_mu := mu.max eps
  let ratio : Reading K := if lt (some 0) y then mul y (log (div (y.max eps) safe_mu)) else some 0
  match family with
  | .negative_binomial =>
    mul (some 2) (sub ratio
      (mul (add y (some theta)) (log (div (add y (some theta)) (add safe_mu (some theta))))))
  | .poisson => mul (some 2) (sub ratio (sub y mu))
  | .gamma =>
    mul (some 2) (add (sub (some 0) (log (div (y.max eps) safe_mu))) (div (sub y mu) safe_mu))
  | .gaussian => mul (sub y mu) (sub y mu)
  | .inverse_gaussian => div (mul (sub y mu) (sub y mu)) (mul (y.max eps) (mul safe_mu safe_mu))
  | .binomial =>
    let second : Reading K := if lt y (some 1) then
      mul (sub (some 1) y) (log (div ((sub (some 1) y).max eps) ((sub (some 1) mu).max eps)))
      else some 0
    mul (some 2) (add ratio second)
  | .tweedie =>
    mul (some 2) (add (sub
      (div (pow (y.max (some 0)) (2 - power)) (some ((1 - power) * (2 - power))))
      (div (mul y (pow safe_mu (1 - power))) (some (1 - power))))
      (div (pow safe_mu (2 - power)) (some (2 - power))))

/-- `deviance`: less than zero by no more than the rounding of floats is zero, and what is not a number
is too. -/
def deviance (y mu : List (Reading K)) (family : Family) (power : K) (theta : Option K) :
    Except Refusal (Reading K) := do
  if family = .negative_binomial ∧ ¬ theta.any fun t => decide (0 < t) then
    throw .thetaUndeclared
  let unit := List.zipWith (unitDeviance num family power (theta.getD 0)) y mu
  let total := sum unit
  if le (some 0) total then return total
  let size := sum (unit.map abs)
  let tolerance := mul (some (1 / 10 ^ 9)) (if lt (some 1) size then size else some 1)
  if lt total (sub (some 0) tolerance) then throw .negativeDeviance
  return some 0

end Deviance

/-! ## Gini and bins -/

section Ranked

open Reading

def at? (l : List (Reading K)) (i : ℕ) : Reading K := (l[i]?).join

def rates (l exposure : List (Reading K)) : List (Reading K) :=
  List.zipWith (fun a e => if lt (some 0) e then div a e else some 0) l exposure

def keys (l : List (Reading K)) (i : ℕ) : WithTop K := (at? l i).key

/-- One less twice the area under the Lorenz curve of an order. -/
def coefficient (actual exposure order_key : List (Reading K)) : Reading K :=
  let order := argsort (keys order_key) order_key.length
  let x := (cumsum (order.map (at? exposure))).map fun v => div v (sum exposure)
  let y := (cumsum (order.map (at? actual))).map fun v => div v (sum actual)
  sub (some 1) (mul (some 2) (trapezoid y x))

/-- `_gini`: the coefficient, and its share of that of the order of the actuals. -/
def gini (actual predicted exposure : List (Reading K)) : Reading K × Reading K :=
  if le (sum actual) (some 0) || le (sum exposure) (some 0) then (some 0, some 0)
  else
    let model := coefficient actual exposure (rates predicted exposure)
    let perfect := coefficient actual exposure (rates actual exposure)
    (model, if lt (some 0) perfect then div model perfect else some 0)

/-- `_bin_index`: equal bins of an array in its order, from one on. -/
def binIndex (values : List (Reading K)) (bins : ℕ) : List ℕ :=
  (List.range values.length).map fun i =>
    min (block values.length bins (place (keys values) values.length i)) (bins - 1) + 1

omit [Field K] [LinearOrder K] in
theorem key_injective : Function.Injective (Reading.key (K := K)) := by
  intro x y h
  cases x <;> cases y <;> simp_all [Reading.key]

omit [Field K] in
theorem binIndex_eq (values : List (Reading K)) {bins : ℕ} (hbins : 0 < bins) :
    binIndex values bins = (List.range values.length).map fun i =>
      block values.length bins (place (keys values) values.length i) + 1 := by
  unfold binIndex
  apply List.map_congr_left
  intro i hi
  have hlt := block_lt (place_lt (List.mem_range.mp hi) : place (keys values) _ i < _) hbins
  omega

omit [Field K] [LinearOrder K] in
theorem keys_strict {l : List (Reading K)} (h : l.Nodup) :
    ∀ i < l.length, ∀ j < l.length, keys l i = keys l j → i = j := by
  intro i hi j hj heq
  have hsame := key_injective heq
  rw [at?, at?, List.getElem?_eq_getElem hi, List.getElem?_eq_getElem hj] at hsame
  exact (h.getElem_inj_iff).mp hsame

end Ranked

/-! ## Families -/

/-- `_FAMILIES` -/
def families (name : String) : Option Family :=
  if name = "count:poisson" then some .poisson
  else if name = "reg:gamma" then some .gamma
  else if name = "reg:tweedie" then some .tweedie
  else if name = "binary:logistic" then some .binomial
  else none

/-- `_RESPONSE_FAMILIES` -/
def responseFamilies : ResponseKind → Family
  | .claim_count => .poisson
  | .claim_severity => .gamma
  | .burning_cost => .tweedie
  | .conversion => .binomial
  | .retention => .binomial

/-- `objective_family` -/
def objectiveFamily (response : Option ResponseKind) (objective : ObjectiveSpec)
    (tweedie_variance_power : Option K) : Except Refusal (Family × K) := do
  let family ← match objective with
    | .custom => require (response.map responseFamilies) Refusal.objectiveResponseUndeclared
    | .builtin name => .ok ((families name).getD .poisson)
  return (family, tweedie_variance_power.getD (3 / 2))

/-- `_theta_of` -/
def thetaOf (spec : ModelSpec K S) : Option K :=
  match spec.arm with
  | .glm .negative_binomial _ theta => theta
  | _ => none

/-! ## Diagnostics -/

/-- A model with what it is scored by: the arrays of an offset from another model are aligned to a
frame. -/
structure Candidate (R S K : Type) where
  ref : String
  spec : ModelSpec K S
  /-- `fit.tweedie.estimated_power` of a linear model. -/
  estimated_power : Option K
  score : Option (List (Reading K)) → Book R K → Except Refusal (List (Reading K))
  score_length : ∀ offset data mu, score offset data = .ok mu → mu.length = data.rows.length
  /-- `_offset` -/
  score_model : spec.offset = .model → ∀ data mu, score none data ≠ .ok mu
  /-- `resolve_factors`: the levels of the categorical factors, row by row. -/
  terms : Book R K → Except Refusal (List (String × List (Option String)))

namespace Candidate

/-- `_power_of` over the two arms, with the family. -/
def familyOf (c : Candidate R S K) : Except Refusal (Family × K) :=
  match c.spec.arm with
  | .glm family power _ => .ok (family, c.estimated_power.getD (power.getD (3 / 2)))
  | .gbm objective power => objectiveFamily c.spec.response objective power

end Candidate

structure AeCell (K : Type) where
  factor : String
  level : String
  actual : Reading K
  expected : Reading K
  ae : Reading K
  ci_95 : Option (Reading K × Reading K)
  exposure_years : Reading K

structure LiftBin (K : Type) where
  bin : ℕ
  rows : ℕ
  predicted : Reading K
  actual : Reading K
  exposure_years : Reading K

structure CalibrationBin (K : Type) where
  bin : ℕ
  rows : ℕ
  predicted : Reading K
  actual : Reading K

structure PartitionDiagnostics (K : Type) where
  weighting : Weighting
  rows : ℕ
  rows_excluded_zero_weight : ℕ
  rows_excluded_unknown_response : Option ℕ
  ae_overall : Reading K
  ae_by_factor : List (AeCell K)
  lift : List (LiftBin K)
  gini : Reading K
  gini_normalised : Reading K
  calibration : List (CalibrationBin K)

/-- `_BINS` of the diagnostics. -/
def chart_bins : ℕ := 10

section Partition

variable (num : Elementary K)

open Reading

/-- `expected_total` -/
def expectedTotal (spec : ModelSpec K S) (data : Book R K) (mu : List (Reading K)) : Reading K :=
  sum (List.zipWith mul (aeWeights spec data) mu)

/-- `actual_total` over `expected_total`. -/
def actualOverExpected (spec : ModelSpec K S) (data : Book R K) (y mu : List (Reading K)) : Reading K :=
  div (sum (List.zipWith mul (aeWeights spec data) y)) (expectedTotal spec data mu)

def levelsOf (levels : List (Option String)) : List String :=
  levels.reduceOption.dedup.insertionSort (· ≤ ·)

/-- The cell of one level, none where nothing is expected of it. -/
def aeCell (weighted : Bool) (ae_w exposure y mu : List (Reading K)) (factor : String)
    (levels : List (Option String)) (level : String) : Option (AeCell K) :=
  let mask := levels.map fun l => decide (l = some level)
  let actual := sum (select mask (List.zipWith mul ae_w y))
  let expected := sum (select mask (List.zipWith mul ae_w mu))
  if le expected (some 0) then none
  else
    let ratio := div actual expected
    let sum_w := sum (select mask ae_w)
    let half : Option (Reading K) :=
      if weighted then
        if lt (some 0) actual && lt (some 0) sum_w then
          some (div (mul ratio (some num.normal_975)) (sum_w.bind num.sqrt))
        else none
      else if lt (some 0) actual then
        some (div (mul (some num.normal_975) (actual.bind num.sqrt)) expected)
      else none
    some {
      factor := factor
      level := level
      actual := actual
      expected := expected
      ae := ratio
      ci_95 := half.map fun h => (sub ratio h, add ratio h)
      exposure_years := (sum (select mask exposure)).map num.round6 }

/-- The cells of the categorical factors. -/
def aeByFactor (weighted : Bool) (ae_w exposure y mu : List (Reading K))
    (terms : List (String × List (Option String))) : List (AeCell K) :=
  terms.flatMap fun term => (levelsOf term.2).filterMap
    (aeCell num weighted ae_w exposure y mu term.1 term.2)

/-- One bin of the lift, for each unit of exposure. -/
def liftBinOf (exposure y mu : List (Reading K)) (bin : ℕ) (mask : List Bool) : LiftBin K :=
  let bin_exposure := sum (select mask exposure)
  { bin := bin
    rows := mask.count true
    predicted := if lt (some 0) bin_exposure then div (sum (select mask mu)) bin_exposure else some 0
    actual := if lt (some 0) bin_exposure then div (sum (select mask y)) bin_exposure else some 0
    exposure_years := bin_exposure.map num.round6 }

/-- The bins of the predicted rates that have rows. -/
def liftOf (exposure y mu : List (Reading K)) : List (LiftBin K) :=
  let bins := binIndex (rates mu exposure) chart_bins
  (List.range chart_bins).filterMap fun b =>
    let mask := bins.map fun bin => decide (bin = b + 1)
    if mask.count true = 0 then none else some (liftBinOf num exposure y mu (b + 1) mask)

/-- `_partition`: a ratio below zero, or that is not a number, is refused. -/
def partition (data : Book R K) (spec : ModelSpec K S) (terms : List (String × List (Option String)))
    (mu : List (Reading K)) (excluded : ℕ) (excluded_unknown : Option ℕ) :
    Except Refusal (PartitionDiagnostics K) := do
  ensure (spec.response_column ∈ data.columns) (Refusal.columnNotFound spec.response_column)
  let y := data.numbers spec.response_column
  let exposure := weights spec data
  let ae_overall : Reading K := if lt (some 0) (expectedTotal spec data mu) then
    actualOverExpected spec data y mu else some 0
  let lift := liftOf num exposure y mu
  let (g, normalised) := gini y mu exposure
  ensure (le (some 0) ae_overall = true) Refusal.negativeRatio
  return {
    weighting := weighting spec
    rows := data.rows.length
    rows_excluded_zero_weight := excluded
    rows_excluded_unknown_response := excluded_unknown
    ae_overall := ae_overall
    ae_by_factor := aeByFactor num spec.weight.column?.isSome (aeWeights spec data) exposure y mu terms
    lift := lift
    gini := g
    gini_normalised := normalised
    calibration := lift.map fun b => ⟨b.bin, b.rows, b.predicted, b.actual⟩ }

/-- `compute_diagnostics` and `compute_gbm_diagnostics`, of the holdout. -/
def holdoutDiagnostics (c : Candidate R S K) (model_offset : Option (List (Reading K)))
    (holdout : Book R K) : Except Refusal (PartitionDiagnostics K) := do
  let kept := dropZeroWeightRows holdout c.spec
  let mu ← c.score (if c.spec.offset = .model then model_offset.map kept.take else none) kept.data
  let terms ← c.terms kept.data
  partition num kept.data c.spec terms mu kept.excluded kept.excluded_unknown

end Partition

end GiPricing.Comparison
