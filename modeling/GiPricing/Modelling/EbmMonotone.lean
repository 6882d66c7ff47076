import GiPricing.Failure.Lists
import GiPricing.Numeric.Steps
import Mathlib.Data.Nat.Dist

/-! # Monotone lookup tables

An additive model prices a row by looking its slots up in tables. Its monotone constraints are
checked on the cells of the tables that the fit gave a weight, while a price may look up any cell.
-/

namespace GiPricing.Modelling

open Failure Numeric

/-! ## The fitted tables -/

/-- `EbmFeatureBins`: the cuts of a numeric feature, or the levels of a categorical one. -/
inductive EbmBins
  | numeric (cuts : List ℚ)
  | categorical (levels : List String)

/-- The slots of a feature: the base slot, the bins and the slot of a missing value. -/
def EbmBins.slots : EbmBins → ℕ
  | numeric cuts => cuts.length + 3
  | categorical levels => levels.length + 2

@[simp] theorem EbmBins.slots_numeric {cuts : List ℚ} :
    (numeric cuts).slots = cuts.length + 3 := rfl

@[simp] theorem EbmBins.slots_categorical {levels : List String} :
    (categorical levels).slots = levels.length + 2 := rfl

def EbmBins.Nonempty : EbmBins → Prop
  | numeric cuts => cuts ≠ []
  | categorical levels => levels ≠ []

/-- `EbmTerm`: the scores and bin weights of one feature, or of the grid of a pair with one row for
each slot of the first. -/
inductive EbmTerm
  | main (feature : ℕ) (scores bin_weights : List ℚ)
  | pair (first second : ℕ) (scores bin_weights : List (List ℚ))

namespace EbmTerm

def term_features : EbmTerm → List ℕ
  | main feature _ _ => [feature]
  | pair first second _ _ => [first, second]

/-- `_the_lookup_shapes_match_the_bins` -/
def ShapesMatch (bins : List EbmBins) : EbmTerm → Prop
  | main feature scores weights => weights.length = scores.length ∧
      (bins[feature]?).map EbmBins.slots = some scores.length
  | pair first second scores weights => weights.length = scores.length ∧
      (bins[first]?).map EbmBins.slots = some scores.length ∧
      ∀ row ∈ scores, (bins[second]?).map EbmBins.slots = some row.length

/-- `_the_base_slot_is_never_a_real_bin` -/
def BaseUnused : EbmTerm → Prop
  | main _ _ weights => weights.head? = some 0
  | pair _ _ _ weights => (weights.head?.bind List.head?).getD 0 = 0

end EbmTerm

/-- A fit that its validators accept. -/
structure EbmFitResult where
  intercept : ℚ
  feature_order : List String
  bins : List EbmBins
  terms : List EbmTerm
  bins_nonempty : ∀ b ∈ bins, b.Nonempty
  bins_align : bins.length = feature_order.length
  features_exist : ∀ term ∈ terms, ∀ index ∈ term.term_features, index < feature_order.length
  shapes_match : ∀ term ∈ terms, term.ShapesMatch bins
  base_unused : ∀ term ∈ terms, term.BaseUnused

/-- The constraints of a spec: the direction of each slug. -/
structure EbmSpec where
  monotone_constraints : List (String × ℤ)
  directions : ∀ c ∈ monotone_constraints, c.2 ∈ [-1, 0, 1]

inductive EbmFailure
  | constraintUnknown (slug : String)
  | indexOutOfRange
  | lengthsDiffer
  | termUnresolved (slug : String)
  | uncastable (text : String)
  | unseenLevel (slug level : String)
  | notAnIndex
  deriving DecidableEq

/-- The last position of an element, as a dictionary built from its positions has it. -/
def lastIndex (l : List String) (s : String) : Option ℕ :=
  (l.zipIdx.filter fun p => p.1 = s).getLast?.map Prod.snd

/-! ## The check -/

/-- `_direction_worst` -/
def directionWorst (sequence : List ℚ) (direction : ℤ) : ℚ := worstStep (direction = 1) sequence

def realScores (cells : List (ℚ × ℚ)) : List ℚ :=
  (cells.filter fun c => c.2 ≠ 0).map Prod.fst

/-- The cells of one column of a grid. -/
def columnCells (scores weights : List (List ℚ)) (column : ℕ) : Except EbmFailure (List (ℚ × ℚ)) :=
  (scores.zip weights).mapM fun row => do
    let weight ← require row.2[column]? .indexOutOfRange
    let score ← require row.1[column]? .indexOutOfRange
    return (score, weight)

def rowCells (row : List ℚ × List ℚ) : Except EbmFailure (List (ℚ × ℚ)) := do
  ensure (row.1.length = row.2.length) .lengthsDiffer
  return row.1.zip row.2

/-- The slices of a grid along the axis of the constrained feature. -/
def slicesAlong (along_first : Prop) [Decidable along_first] (scores weights : List (List ℚ)) :
    Except EbmFailure (List (List (ℚ × ℚ))) :=
  if along_first then (List.range (scores.headD []).length).mapM (columnCells scores weights)
  else (scores.zip weights).mapM rowCells

/-- `_term_monotonicity_worst` -/
def termMonotonicityWorst (feature : ℕ) (direction : ℤ) : EbmTerm → Except EbmFailure ℚ
  | .main _ scores weights => return directionWorst (realScores (scores.zip weights)) direction
  | .pair first _ scores weights => if scores.headD [] = [] then return 0 else do
    let slices ← slicesAlong (first = feature) scores weights
    return (slices.map fun cells => directionWorst (realScores cells) direction).foldr max 0

def tolerance : ℚ := 1 / 10 ^ 9

/-- `ebm_monotonicity_verified` -/
def ebmMonotonicityVerified (result : EbmFitResult) (spec : EbmSpec) :
    Except EbmFailure (Option Bool) := do
  let active := spec.monotone_constraints.filter fun c => c.2 ≠ 0
  if active = [] then return none
  let worsts ← active.mapM fun c => do
    let feature ← require (lastIndex result.feature_order c.1) (.constraintUnknown c.1)
    (result.terms.filter fun term => feature ∈ term.term_features).mapM
      (termMonotonicityWorst feature c.2)
  return some (worsts.flatten.foldr max 0 ≤ tolerance)

/-! ## The price -/

inductive Cell
  | number (x : ℚ)
  | nan
  | text (s : String)
  | null
  deriving DecidableEq

/-- How a frame casts between texts and numbers: a text that is no number fails. -/
structure Casts where
  float : String → Option ℚ
  string : ℚ → String

/-- The halves of a search between two positions, until none is left. -/
def bisect (below : ℕ → Bool) : ℕ → ℕ → ℕ → ℕ
  | 0, lo, _ => lo
  | fuel + 1, lo, hi =>
    if lo < hi then
      if below (lo + (hi - lo) / 2) then bisect below fuel (lo + (hi - lo) / 2 + 1) hi
      else bisect below fuel lo (lo + (hi - lo) / 2)
    else lo

/-- `np.searchsorted(cuts, value, side="right")` at one value, a missing value being above all. -/
def searchsorted (cuts : List ℚ) (value : Option ℚ) : ℕ :=
  bisect (fun k => value.all fun v => cuts.getD k 0 ≤ v) cuts.length 0 cuts.length

variable (casts : Casts)

/-- The number of a value, a missing one having none. -/
def Cell.float : Cell → Except EbmFailure (Option ℚ)
  | number x => return some x
  | nan => return none
  | null => return none
  | text s => do
    let x ← require (casts.float s) (.uncastable s)
    return some x

def Cell.string : Cell → String
  | number x => casts.string x
  | nan => "NaN"
  | null => "None"
  | text s => s

/-- The slot of a value in the bins of a feature. -/
def slot (slug : String) (cell : Cell) : EbmBins → Except EbmFailure ℕ
  | .numeric cuts => do
    let value ← cell.float casts
    return searchsorted cuts value + 1
  | .categorical levels => do
    let index ← require (lastIndex levels (cell.string casts))
      (.unseenLevel slug (cell.string casts))
    ensure (cell ≠ .null) .notAnIndex
    return index + 1

abbrev EbmRow := String → Option Cell

/-- The slots of a row, by feature. -/
def slots (fit : EbmFitResult) (row : EbmRow) : Except EbmFailure (List ℕ) :=
  (fit.feature_order.zip fit.bins).mapM fun f => do
    let cell ← require (row f.1) (.termUnresolved f.1)
    slot casts f.1 cell f.2

def EbmTerm.score (idx : ℕ → ℕ) : EbmTerm → ℚ
  | main feature scores _ => scores.getD (idx feature) 0
  | pair first second scores _ => (scores.getD (idx first) []).getD (idx second) 0

def EbmFitResult.eta (fit : EbmFitResult) (idx : ℕ → ℕ) : ℚ :=
  fit.intercept + (fit.terms.map (EbmTerm.score idx)).sum

/-- `predict_ebm`, at one row. -/
def predictEbm (fit : EbmFitResult) (row : EbmRow) : Except EbmFailure ℚ := do
  let idx ← slots casts fit row
  return fit.eta fun g => idx.getD g 0

/-! ## Monotone where it prices -/

/-- The own order of a feature: by number, or by the labels of its banding. -/
inductive FeatureOrder
  | numeric
  | banded (labels : List String)

def FeatureOrder.Before : FeatureOrder → Cell → Cell → Prop
  | numeric, .number x, .number y => x ≤ y
  | banded labels, .text a, .text b =>
    ∃ i j : ℕ, i ≤ j ∧ labels[i]? = some a ∧ labels[j]? = some b
  | _, _, _ => False

def EbmTerm.crossed (idx idx' : ℕ → ℕ) (term : EbmTerm) : ℕ :=
  (term.term_features.map fun g => Nat.dist (idx g) (idx' g)).sum

def EbmFitResult.crossed (fit : EbmFitResult) (idx idx' : ℕ → ℕ) : ℕ :=
  (fit.terms.map (EbmTerm.crossed idx idx')).sum

/-- The cell of a term at a slot of each feature has a weight. -/
def EbmTerm.Real (idx : ℕ → ℕ) : EbmTerm → Prop
  | main feature _ weights => ∃ w, weights[idx feature]? = some w ∧ w ≠ 0
  | pair first second _ weights =>
    ∃ row, weights[idx first]? = some row ∧ ∃ w, row[idx second]? = some w ∧ w ≠ 0

/-- The check reads every cell of a term on the way between two slots of a feature. -/
def EbmTerm.ReadBetween (feature : ℕ) (idx idx' : ℕ → ℕ) (term : EbmTerm) : Prop :=
  (∀ g ∈ term.term_features, idx' g = idx g) ∨
    (term.term_features.count feature = 1 ∧
      (∀ g ∈ term.term_features, g ≠ feature → idx' g = idx g) ∧ idx feature ≤ idx' feature ∧
      ∀ k, idx feature ≤ k → k ≤ idx' feature → term.Real (Function.update idx feature k))

variable (fit : EbmFitResult) (spec : EbmSpec) (order : String → FeatureOrder)

/-- Two rows that differ in one feature, and the slots of each. -/
structure Differ (slug : String) (row : EbmRow) (u v : Cell) (idx idx' : List ℕ) : Prop where
  before : (order slug).Before u v
  left : slots casts fit (Function.update row slug (some u)) = .ok idx
  right : slots casts fit (Function.update row slug (some v)) = .ok idx'

/-- Two rows that differ in a constrained feature alone are priced in its direction, within the
tolerance for each table step between them. -/
def MonotoneWherePriced : Prop :=
  ∀ c ∈ spec.monotone_constraints, c.2 ≠ 0 → ∀ row u v idx idx',
    Differ casts fit order c.1 row u v idx idx' →
    ∀ p q, predictEbm casts fit (Function.update row c.1 (some u)) = .ok p →
      predictEbm casts fit (Function.update row c.1 (some v)) = .ok q →
      against (c.2 = 1) p q ≤ tolerance * fit.crossed (idx.getD · 0) (idx'.getD · 0)

/-- Where some table between two rows has a cell that the check does not read, the tables together
step in the direction. -/
def UnreadHold : Prop :=
  ∀ c ∈ spec.monotone_constraints, c.2 ≠ 0 → ∀ feature,
    lastIndex fit.feature_order c.1 = some feature → ∀ row u v idx idx',
    Differ casts fit order c.1 row u v idx idx' →
    (∃ term ∈ fit.terms, ¬ term.ReadBetween feature (idx.getD · 0) (idx'.getD · 0)) →
      (fit.terms.map fun term => against (c.2 = 1) (term.score (idx.getD · 0))
        (term.score (idx'.getD · 0))).sum ≤
          tolerance * fit.crossed (idx.getD · 0) (idx'.getD · 0)

/-! ## What the check reads -/

section Read

variable {casts fit spec order} {direction : ℤ} {feature : ℕ} {idx idx' : ℕ → ℕ}

theorem tolerance_nonneg : 0 ≤ tolerance := by
  unfold tolerance
  positivity

theorem slice_within {cells : List (ℚ × ℚ)}
    (hworst : directionWorst (realScores cells) direction ≤ tolerance) {f : ℕ → ℚ} {i j : ℕ}
    (hij : i ≤ j) (hreal : ∀ k, i ≤ k → k ≤ j → ∃ w, cells[k]? = some (f k, w) ∧ w ≠ 0) :
    against (direction = 1) (f i) (f j) ≤ tolerance * (j - i : ℕ) := by
  apply against_le_of_steps hij
  intro k hik hkj
  obtain ⟨w, hk, hw⟩ := hreal k hik hkj.le
  obtain ⟨w', hk', hw'⟩ := hreal (k + 1) (by omega) hkj
  have hpair : [(f k, w), (f (k + 1), w')] <:+: cells.filter fun c => c.2 ≠ 0 :=
    infix_filter_pair hk hk' (by simpa using hw) (by simpa using hw')
  exact (worstStep_le tolerance_nonneg).mp hworst _ _ (hpair.map Prod.fst)

theorem realScores_worst {cells : List (ℚ × ℚ)} {slices : List (List (ℚ × ℚ))} (h : cells ∈ slices)
    (hworst : (slices.map fun cells => directionWorst (realScores cells) direction).foldr max 0 ≤
      tolerance) : directionWorst (realScores cells) direction ≤ tolerance :=
  (foldr_max_le.mp hworst).2 _ (List.mem_map_of_mem h)

theorem mapM_getElem? {α β ε : Type} {f : α → Except ε β} {l : List α} {r : List β}
    (h : l.mapM f = .ok r) {k : ℕ} {a : α} (ha : l[k]? = some a) :
    ∃ b, r[k]? = some b ∧ f a = .ok b := by
  have hall := mapM_eq_ok.mp h
  clear h
  induction hall generalizing k with
  | nil => simp at ha
  | cons hb _ ih =>
    cases k with
    | zero =>
      obtain rfl : _ = a := by simpa using ha
      exact ⟨_, rfl, hb⟩
    | succ k => exact ih (by simpa using ha)

theorem columnCells_getElem? {scores weights : List (List ℚ)} {column k : ℕ} {cells : List (ℚ × ℚ)}
    (h : columnCells scores weights column = .ok cells) {score_row weight_row : List ℚ} {w : ℚ}
    (hs : scores[k]? = some score_row) (hrow : weights[k]? = some weight_row)
    (hw : weight_row[column]? = some w) : cells[k]? = some (score_row.getD column 0, w) := by
  have hzip : (scores.zip weights)[k]? = some (score_row, weight_row) :=
    List.getElem?_zip_eq_some.mpr ⟨hs, hrow⟩
  obtain ⟨_, hcell, hread⟩ := mapM_getElem? h hzip
  obtain ⟨_, hweight, hrest⟩ := bind_eq_ok.mp hread
  obtain ⟨_, hscore, hpair⟩ := bind_eq_ok.mp hrest
  obtain rfl := pure_eq_ok.mp hpair
  rw [require_eq_ok, hw, Option.some.injEq] at hweight
  rw [require_eq_ok] at hscore
  rw [hcell, hweight, List.getD_eq_getElem?_getD, hscore, Option.getD_some]

theorem rowCells_getElem? {row : List ℚ × List ℚ} {k : ℕ} {cells : List (ℚ × ℚ)}
    (h : rowCells row = .ok cells) {w : ℚ} (hw : row.2[k]? = some w) :
    cells[k]? = some (row.1.getD k 0, w) := by
  obtain ⟨_, hlength, hcells⟩ := bind_eq_ok.mp h
  rw [ensure_eq_ok] at hlength
  obtain rfl := pure_eq_ok.mp hcells
  obtain ⟨hk, rfl⟩ := List.getElem?_eq_some_iff.mp hw
  rw [List.getElem?_zip_eq_some]
  refine ⟨?_, hw⟩
  rw [List.getElem?_eq_getElem (by omega)]
  simp [List.getD, hlength, hk]

namespace EbmTerm

section Tables

variable {g k : ℕ} {scores weights : List ℚ} {grid gridWeights : List (List ℚ)}

@[simp] theorem score_main : (main g scores weights).score idx = scores.getD (idx g) 0 := rfl

@[simp] theorem score_pair :
    (pair g k grid gridWeights).score idx = (grid.getD (idx g) []).getD (idx k) 0 := rfl

@[simp] theorem crossed_main :
    (main g scores weights).crossed idx idx' = Nat.dist (idx g) (idx' g) := by
  simp [crossed, term_features]

@[simp] theorem crossed_pair : (pair g k grid gridWeights).crossed idx idx' =
    Nat.dist (idx g) (idx' g) + Nat.dist (idx k) (idx' k) := by
  simp [crossed, term_features]

theorem score_congr {term : EbmTerm} (h : ∀ g ∈ term.term_features, idx' g = idx g) :
    term.score idx' = term.score idx := by
  cases term with
  | main g scores weights => rw [score_main, score_main, h g List.mem_cons_self]
  | pair g k scores weights =>
    have hk := h k (List.mem_cons_of_mem _ List.mem_cons_self)
    rw [score_pair, score_pair, h g List.mem_cons_self, hk]

theorem slices_of_worst {w : ℚ}
    (h : termMonotonicityWorst feature direction (pair g k grid gridWeights) = .ok w)
    (hempty : grid.headD [] ≠ []) :
    ∃ slices, slicesAlong (g = feature) grid gridWeights = .ok slices ∧
      (slices.map fun cells => directionWorst (realScores cells) direction).foldr max 0 = w := by
  simp only [termMonotonicityWorst, if_neg hempty] at h
  obtain ⟨slices, hslices, hw⟩ := bind_eq_ok.mp h
  exact ⟨slices, hslices, pure_eq_ok.mp hw⟩

section Pairs

variable {bins : List EbmBins} {w : ℚ} {m : ℕ}

theorem lt_row_length (hshape : (pair g k grid gridWeights).ShapesMatch bins)
    (hbound : ∀ g b, bins[g]? = some b → idx g < b.slots) {row : List ℚ} (hrow : row ∈ grid) :
    idx k < row.length := by
  obtain ⟨b, hb, hslots⟩ := Option.map_eq_some_iff.mp (hshape.2.2 row hrow)
  exact hslots ▸ hbound k b hb

theorem exists_row (hshape : (pair g k grid gridWeights).ShapesMatch bins)
    (hbound : ∀ g b, bins[g]? = some b → idx g < b.slots) {weight_row : List ℚ}
    (hm : gridWeights[m]? = some weight_row) :
    grid[m]? = some (grid.getD m []) ∧ idx k < (grid.headD []).length := by
  obtain ⟨hlt, -⟩ := List.getElem?_eq_some_iff.mp hm
  have hlength : gridWeights.length = grid.length := hshape.1
  rw [hlength] at hlt
  constructor
  · simp [List.getD, hlt]
  · cases grid with
    | nil => simp at hlt
    | cons row rows => exact lt_row_length hshape hbound List.mem_cons_self

theorem within_column
    (hworst : termMonotonicityWorst g direction (pair g k grid gridWeights) = .ok w)
    (hw : w ≤ tolerance) (hshape : (pair g k grid gridWeights).ShapesMatch bins)
    (hbound : ∀ g b, bins[g]? = some b → idx g < b.slots) (hle : idx g ≤ idx' g)
    (hreal : ∀ m, idx g ≤ m → m ≤ idx' g → ∃ weight_row, gridWeights[m]? = some weight_row ∧
      ∃ v, weight_row[idx k]? = some v ∧ v ≠ 0) :
    against (direction = 1) ((grid.getD (idx g) []).getD (idx k) 0)
      ((grid.getD (idx' g) []).getD (idx k) 0) ≤ tolerance * (idx' g - idx g : ℕ) := by
  obtain ⟨_, hfirst, -⟩ := hreal _ le_rfl hle
  have hhead := (exists_row hshape hbound hfirst).2
  obtain ⟨slices, hslices, hmax⟩ := slices_of_worst hworst (List.ne_nil_of_length_pos (by omega))
  rw [slicesAlong, if_pos rfl] at hslices
  have hrange : (List.range (grid.headD []).length)[idx k]? = some (idx k) := by
    rw [List.getElem?_range hhead]
  obtain ⟨cells, hcells, hcolumn⟩ := mapM_getElem? hslices hrange
  have hcell := realScores_worst (List.mem_of_getElem? hcells) (hmax ▸ hw)
  apply slice_within hcell (f := fun m => (grid.getD m []).getD (idx k) 0) hle
  intro m hm hm'
  obtain ⟨weight_row, hrow, v, hv, hne⟩ := hreal m hm hm'
  exact ⟨v, columnCells_getElem? hcolumn (exists_row hshape hbound hrow).1 hrow hv, hne⟩

theorem within_row
    (hworst : termMonotonicityWorst k direction (pair g k grid gridWeights) = .ok w) (hgk : g ≠ k)
    (hw : w ≤ tolerance) (hshape : (pair g k grid gridWeights).ShapesMatch bins)
    (hbound : ∀ g b, bins[g]? = some b → idx g < b.slots) (hle : idx k ≤ idx' k)
    (hreal : ∀ m, idx k ≤ m → m ≤ idx' k → ∃ weight_row, gridWeights[idx g]? = some weight_row ∧
      ∃ v, weight_row[m]? = some v ∧ v ≠ 0) :
    against (direction = 1) ((grid.getD (idx g) []).getD (idx k) 0)
      ((grid.getD (idx g) []).getD (idx' k) 0) ≤ tolerance * (idx' k - idx k : ℕ) := by
  obtain ⟨weight_row, hrow, -⟩ := hreal _ le_rfl hle
  obtain ⟨hgrid, hhead⟩ := exists_row hshape hbound hrow
  obtain ⟨slices, hslices, hmax⟩ := slices_of_worst hworst (List.ne_nil_of_length_pos (by omega))
  rw [slicesAlong, if_neg hgk] at hslices
  have hzip : (grid.zip gridWeights)[idx g]? = some (grid.getD (idx g) [], weight_row) :=
    List.getElem?_zip_eq_some.mpr ⟨hgrid, hrow⟩
  obtain ⟨cells, hcells, hread⟩ := mapM_getElem? hslices hzip
  have hcell := realScores_worst (List.mem_of_getElem? hcells) (hmax ▸ hw)
  apply slice_within hcell (f := fun m => (grid.getD (idx g) []).getD m 0) hle
  intro m hm hm'
  obtain ⟨row, hrow', v, hv, hne⟩ := hreal m hm hm'
  obtain rfl : weight_row = row := Option.some.inj (hrow.symm.trans hrow')
  exact ⟨v, rowCells_getElem? hread hv, hne⟩

end Pairs

/-- A table that passes the check steps in the direction over the cells that the check reads. -/
theorem within {bins : List EbmBins} {term : EbmTerm} {w : ℚ}
    (hworst : termMonotonicityWorst feature direction term = .ok w) (hw : w ≤ tolerance)
    (hshape : term.ShapesMatch bins) (hbound : ∀ g b, bins[g]? = some b → idx g < b.slots)
    (hread : term.ReadBetween feature idx idx') :
    against (direction = 1) (term.score idx) (term.score idx') ≤
      tolerance * term.crossed idx idx' := by
  rcases hread with hsame | ⟨honce, hother, hle, hreal⟩
  · rw [score_congr hsame, against_self]
    exact mul_nonneg tolerance_nonneg (Nat.cast_nonneg _)
  cases term with
  | main g scores weights =>
    obtain rfl : g = feature := by
      by_contra hne
      simp [term_features, hne] at honce
    obtain rfl : directionWorst (realScores (scores.zip weights)) direction = w :=
      pure_eq_ok.mp hworst
    rw [crossed_main, Nat.dist_eq_sub_of_le hle]
    apply slice_within hw (f := fun k => scores.getD k 0) hle
    intro k hk hk'
    obtain ⟨v, hv, hne⟩ := hreal k hk hk'
    rw [Function.update_self] at hv
    obtain ⟨hlt, -⟩ := List.getElem?_eq_some_iff.mp hv
    refine ⟨v, List.getElem?_zip_eq_some.mpr ⟨?_, hv⟩, hne⟩
    have hlength : weights.length = scores.length := hshape.1
    simp [List.getD, hlength ▸ hlt]
  | pair g k grid gridWeights =>
    rw [score_pair, score_pair, crossed_pair]
    by_cases hg : g = feature
    · -- The slots move along the rows of one column.
      subst hg
      have hne : k ≠ g := by
        rintro rfl
        simp [term_features] at honce
      rw [hother k (by simp [term_features]) hne, Nat.dist_self, add_zero,
        Nat.dist_eq_sub_of_le hle]
      apply within_column hworst hw hshape hbound hle
      intro m hm hm'
      obtain ⟨row, hrow, v, hv, hne'⟩ := hreal m hm hm'
      rw [Function.update_self] at hrow
      rw [Function.update_of_ne hne] at hv
      exact ⟨row, hrow, v, hv, hne'⟩
    · -- The slots move along the columns of one row.
      obtain rfl : k = feature := by
        by_contra hne
        simp [term_features, hg, hne] at honce
      rw [hother g (by simp [term_features]) hg, Nat.dist_self, zero_add,
        Nat.dist_eq_sub_of_le hle]
      apply within_row hworst hg hw hshape hbound hle
      intro m hm hm'
      obtain ⟨row, hrow, v, hv, hne'⟩ := hreal m hm hm'
      rw [Function.update_of_ne hg] at hrow
      rw [Function.update_self] at hv
      exact ⟨row, hrow, v, hv, hne'⟩

end Tables

end EbmTerm

/-! ### The slots of a row -/

theorem bisect_le {below : ℕ → Bool} {fuel lo hi : ℕ} (h : lo ≤ hi) : bisect below fuel lo hi ≤ hi := by
  induction fuel generalizing lo hi with
  | zero => exact h
  | succ fuel ih =>
    unfold bisect
    split_ifs with hlt hbelow
    · exact ih (by omega)
    · exact (ih (by omega)).trans (by omega)
    · exact h

theorem lastIndex_lt {l : List String} {s : String} {n : ℕ} (h : lastIndex l s = some n) :
    n < l.length := by
  obtain ⟨⟨x, n⟩, hlast, rfl⟩ := Option.map_eq_some_iff.mp h
  have hmem := List.mem_of_mem_filter (List.mem_of_getLast? hlast)
  have hlt : n < 0 + l.length := (List.mem_zipIdx hmem).2.1
  rwa [zero_add] at hlt

theorem slot_lt {slug : String} {cell : Cell} {b : EbmBins} {n : ℕ}
    (h : slot casts slug cell b = .ok n) : n < b.slots := by
  cases b with
  | numeric cuts =>
    obtain ⟨value, -, hn⟩ := bind_eq_ok.mp h
    obtain rfl := pure_eq_ok.mp hn
    have hle : searchsorted cuts value ≤ cuts.length := bisect_le (Nat.zero_le _)
    rw [EbmBins.slots_numeric]
    omega
  | categorical levels =>
    obtain ⟨index, hindex, hrest⟩ := bind_eq_ok.mp h
    obtain ⟨-, -, hn⟩ := bind_eq_ok.mp hrest
    obtain rfl := pure_eq_ok.mp hn
    have hlt := lastIndex_lt (require_eq_ok.mp hindex)
    rw [EbmBins.slots_categorical]
    omega

theorem slots_lt {row : EbmRow} {at_row : List ℕ} (h : slots casts fit row = .ok at_row) {g : ℕ}
    {b : EbmBins} (hb : fit.bins[g]? = some b) : at_row.getD g 0 < b.slots := by
  obtain ⟨hlt, -⟩ := List.getElem?_eq_some_iff.mp hb
  rw [fit.bins_align] at hlt
  have hzip : (fit.feature_order.zip fit.bins)[g]? = some (fit.feature_order[g], b) :=
    List.getElem?_zip_eq_some.mpr ⟨List.getElem?_eq_getElem hlt, hb⟩
  obtain ⟨n, hn, hslot⟩ := mapM_getElem? h hzip
  obtain ⟨cell, -, hcell⟩ := bind_eq_ok.mp hslot
  rw [List.getD_eq_getElem?_getD, hn, Option.getD_some]
  exact slot_lt hcell

/-! ### From the tables to the price -/

theorem verified_worst (h : ebmMonotonicityVerified fit spec = .ok (some true)) {c : String × ℤ}
    (hc : c ∈ spec.monotone_constraints) (hne : c.2 ≠ 0) :
    ∃ feature, lastIndex fit.feature_order c.1 = some feature ∧
      ∀ term ∈ fit.terms, feature ∈ term.term_features →
        ∃ w, termMonotonicityWorst feature c.2 term = .ok w ∧ w ≤ tolerance := by
  have hactive : c ∈ spec.monotone_constraints.filter fun c => c.2 ≠ 0 := by simp [hc, hne]
  unfold ebmMonotonicityVerified at h
  simp only [if_neg (List.ne_nil_of_mem hactive)] at h
  obtain ⟨worsts, hworsts, hmax⟩ := bind_eq_ok.mp h
  obtain ⟨ws, hws, hread⟩ := exists_of_forall₂ (mapM_eq_ok.mp hworsts) hactive
  obtain ⟨feature, hfeature, hterms⟩ := bind_eq_ok.mp hread
  refine ⟨feature, require_eq_ok.mp hfeature, fun term hterm hmem => ?_⟩
  have hfilter : term ∈ fit.terms.filter fun term => feature ∈ term.term_features := by
    simp [hterm, hmem]
  obtain ⟨w, hw, hworst⟩ := exists_of_forall₂ (mapM_eq_ok.mp hterms) hfilter
  have hle : worsts.flatten.foldr max 0 ≤ tolerance := by simpa using pure_eq_ok.mp hmax
  exact ⟨w, hworst, (foldr_max_le.mp hle).2 w (List.mem_flatten_of_mem hws hw)⟩

theorem against_eta : against (direction = 1) (fit.eta idx) (fit.eta idx') =
    (fit.terms.map fun term => against (direction = 1) (term.score idx) (term.score idx')).sum := by
  unfold EbmFitResult.eta
  rw [against_add_add, against_self, zero_add]
  induction fit.terms with
  | nil => exact against_self
  | cons term terms ih =>
    rw [List.map_cons, List.map_cons, List.map_cons, List.sum_cons, List.sum_cons, List.sum_cons,
      against_add_add, ih]

theorem sum_within (h : ∀ term ∈ fit.terms, against (direction = 1) (term.score idx)
      (term.score idx') ≤ tolerance * term.crossed idx idx') :
    (fit.terms.map fun term => against (direction = 1) (term.score idx) (term.score idx')).sum ≤
      tolerance * fit.crossed idx idx' := by
  unfold EbmFitResult.crossed
  revert h
  induction fit.terms with
  | nil => simp
  | cons term terms ih =>
    intro h
    obtain ⟨hterm, hterms⟩ := List.forall_mem_cons.mp h
    rw [List.map_cons, List.map_cons, List.sum_cons, List.sum_cons, Nat.cast_add, mul_add]
    exact add_le_add hterm (ih hterms)

variable (casts order) in
/-- A verified fit is monotone where it prices where the tables hold their direction over the cells
that the check does not read. -/
theorem monotoneWherePriced_iff (h : ebmMonotonicityVerified fit spec = .ok (some true)) :
    MonotoneWherePriced casts fit spec order ↔ UnreadHold casts fit spec order := by
  constructor
  · intro hmono c hc hne feature _ row u v at_u at_v hdiffer _
    rw [← against_eta]
    apply hmono c hc hne row u v at_u at_v hdiffer
    · exact bind_eq_ok.mpr ⟨at_u, hdiffer.left, rfl⟩
    · exact bind_eq_ok.mpr ⟨at_v, hdiffer.right, rfl⟩
  · intro hunread c hc hne row u v at_u at_v hdiffer p q hp hq
    obtain ⟨feature, hfeature, hworst⟩ := verified_worst h hc hne
    obtain ⟨_, hleft, hp⟩ := bind_eq_ok.mp hp
    obtain ⟨_, hright, hq⟩ := bind_eq_ok.mp hq
    obtain rfl := Except.ok.inj (hdiffer.left.symm.trans hleft)
    obtain rfl := Except.ok.inj (hdiffer.right.symm.trans hright)
    obtain rfl := pure_eq_ok.mp hp
    obtain rfl := pure_eq_ok.mp hq
    rw [against_eta]
    by_cases hread : ∃ term ∈ fit.terms,
        ¬ term.ReadBetween feature (at_u.getD · 0) (at_v.getD · 0)
    · exact hunread c hc hne feature hfeature row u v at_u at_v hdiffer hread
    · push Not at hread
      apply sum_within
      intro term hterm
      by_cases hmem : feature ∈ term.term_features
      · obtain ⟨w, hw, hle⟩ := hworst term hterm hmem
        exact EbmTerm.within hw hle (fit.shapes_match term hterm)
          (fun _ _ hb => slots_lt hdiffer.left hb) (hread term hterm)
      · have hsame : ∀ g ∈ term.term_features, at_v.getD g 0 = at_u.getD g 0 := by
          rcases hread term hterm with hsame | ⟨honce, -⟩
          · exact hsame
          · exact absurd (List.count_pos_iff.mp (by omega)) hmem
        rw [EbmTerm.score_congr hsame, against_self]
        exact mul_nonneg tolerance_nonneg (Nat.cast_nonneg _)

end Read

/-! ### A bin that the fit never saw -/

/-- A fit over the ages below one, below two and above, with the scores and weights given. -/
def ages (below middle above middle_weight : ℚ) : EbmFitResult where
  intercept := 0
  feature_order := ["age"]
  bins := [.numeric [1, 2]]
  terms := [.main 0 [0, below, middle, above, 0] [0, 10, middle_weight, 10, 0]]
  bins_nonempty := by simp [EbmBins.Nonempty]
  bins_align := rfl
  features_exist := by simp [EbmTerm.term_features]
  shapes_match := by simp [EbmTerm.ShapesMatch]
  base_unused := by simp [EbmTerm.BaseUnused]

def rising : EbmSpec := ⟨[("age", 1)], by simp⟩

def noCasts : Casts := ⟨fun _ => none, fun _ => ""⟩

theorem ages_seen : MonotoneWherePriced noCasts (ages 1 2 3 10) rising (fun _ => .numeric) ↔
    UnreadHold noCasts (ages 1 2 3 10) rising fun _ => .numeric :=
  monotoneWherePriced_iff noCasts _ (by with_unfolding_all decide)

/-- The scores that have a weight rise, and the price falls from the bin that has none. -/
theorem ages_unseen : ebmMonotonicityVerified (ages 1 5 2 0) rising = .ok (some true) ∧
    ¬ MonotoneWherePriced noCasts (ages 1 5 2 0) rising fun _ => .numeric := by
  refine ⟨by with_unfolding_all decide, fun h => ?_⟩
  have hbefore : FeatureOrder.numeric.Before (.number (3 / 2)) (.number 3) := by
    change (3 / 2 : ℚ) ≤ 3
    norm_num
  have hfall := h ("age", 1) (by simp [rising]) (by decide) (fun _ => none) (.number (3 / 2))
    (.number 3) [2] [3] ⟨hbefore, by with_unfolding_all decide, by decide⟩ 5 2
    (by with_unfolding_all decide) (by with_unfolding_all decide)
  revert hfall
  with_unfolding_all decide

end GiPricing.Modelling
