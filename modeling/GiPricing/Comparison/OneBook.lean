import GiPricing.Comparison.Gini
import GiPricing.Numeric.Fibres

/-! # One book

The charts of a partition against its totals and under another order of its rows: the bins and the
cells cut the rows into parts, and rows of rates of their own have one place in any order.
-/

namespace GiPricing.Comparison

open Failure GiPricing.Order Lorenz Fibres

variable {K R S : Type} [Field K] [LinearOrder K]

/-! ## Rows -/

/-- The A/E weight of a row. -/
def aeWeightOf (spec : ModelSpec K S) (data : Book R K) : R → Reading K :=
  match declared data spec.weight.column? with
  | some c => data.cell c
  | none => fun _ => some 1

/-- The weight of a row. -/
def weightOf (spec : ModelSpec K S) (data : Book R K) : R → Reading K :=
  match declared data spec.offset.column? with
  | some c => data.cell c
  | none => aeWeightOf spec data

section Rows

variable {spec : ModelSpec K S} {data : Book R K} {rows rows' : List R}

omit [LinearOrder K] in
theorem aeWeights_eq : aeWeights spec data = data.rows.map (aeWeightOf spec data) := by
  unfold aeWeights aeWeightOf
  cases declared data spec.weight.column? <;> rfl

omit [LinearOrder K] in
theorem weights_eq : weights spec data = data.rows.map (weightOf spec data) := by
  unfold weights weightOf
  cases declared data spec.offset.column? with
  | none => exact aeWeights_eq
  | some c => rfl

theorem select_map {α : Type} (p : R → Bool) (g : R → α) :
    select (rows.map p) (rows.map g) = (rows.filter p).map g := by
  induction rows with
  | nil => rfl
  | cons r rows ih =>
    unfold select at ih ⊢
    rw [List.map_cons, List.map_cons, List.zip_cons_cons]
    by_cases hp : p r = true
    · rw [List.filter_cons_of_pos hp, List.filter_cons_of_pos (by exact hp), List.map_cons, List.map_cons,
        ih]
    · rw [List.filter_cons_of_neg hp, List.filter_cons_of_neg (by exact hp), ih]

omit [LinearOrder K] in
theorem sum_numbers {f : R → Reading K} {g : R → K} (h : ∀ r ∈ rows, f r = some (g r)) :
    Reading.sum (rows.map f) = some (rows.map g).sum := by
  rw [List.map_congr_left h, ← sum_numbered, numbered, List.map_map]
  rfl

omit [LinearOrder K] in
theorem add_left_comm' (x y z : Reading K) :
    Reading.add x (Reading.add y z) = Reading.add y (Reading.add x z) := by
  cases x <;> cases y <;> cases z <;> simp [Reading.add, add_left_comm]

omit [LinearOrder K] in
theorem sum_perm {l l' : List (Reading K)} (h : l.Perm l') : Reading.sum l = Reading.sum l' := by
  unfold Reading.sum
  induction h with
  | nil => rfl
  | cons x _ ih => rw [List.foldr_cons, List.foldr_cons, ih]
  | swap x y l =>
    simp only [List.foldr_cons]
    exact add_left_comm' _ _ _
  | trans _ _ ih ih' => exact ih.trans ih'

end Rows

/-! ## The parts of a lift -/

section Lift

variable {num : Elementary K} {rows rows' : List R} {e y m q : R → Reading K}

def rateOf (m e : R → Reading K) (r : R) : Reading K :=
  if Reading.lt (some 0) (e r) then Reading.div (m r) (e r) else some 0

theorem rates_map : rates (rows.map m) (rows.map e) = rows.map (rateOf m e) := by
  rw [rates, List.zipWith_map, List.zipWith_self]
  rfl

def tagged (rows : List R) (q : R → Reading K) : List (ℕ × R) :=
  (binIndex (rows.map q) chart_bins).zip rows

def parted (rows : List R) (q : R → Reading K) (b : ℕ) : List R :=
  ((tagged rows q).filter fun t => t.1 = b + 1).map Prod.snd

omit [Field K] in
theorem length_binIndex (l : List (Reading K)) (k : ℕ) : (binIndex l k).length = l.length := by
  simp [binIndex]

omit [Field K] in
theorem tagged_fst : (tagged rows q).map Prod.fst = binIndex (rows.map q) chart_bins := by
  rw [tagged, List.map_fst_zip]
  rw [length_binIndex, List.length_map]

omit [Field K] in
theorem tagged_snd : (tagged rows q).map Prod.snd = rows := by
  rw [tagged, List.map_snd_zip]
  rw [length_binIndex, List.length_map]

omit [Field K] in
theorem map_tagged {α : Type} (g : R → α) : (tagged rows q).map (fun t => g t.2) = rows.map g :=
  calc (tagged rows q).map (fun t => g t.2)
    _ = ((tagged rows q).map Prod.snd).map g := List.map_map.symm
    _ = rows.map g := by rw [tagged_snd]

omit [Field K] in
theorem tagged_bounds : ∀ t ∈ tagged rows q, t.1 - 1 ∈ List.range chart_bins ∧ 0 < t.1 := by
  intro t ht
  have hmem : t.1 ∈ binIndex (rows.map q) chart_bins := by
    rw [← tagged_fst]
    exact List.mem_map_of_mem ht
  obtain ⟨i, -, heq⟩ := List.mem_map.mp hmem
  rw [List.mem_range, ← heq, chart_bins]
  omega

omit [Field K] in
theorem select_parted (g : R → Reading K) (b : ℕ) :
    select ((binIndex (rows.map q) chart_bins).map fun bin => decide (bin = b + 1)) (rows.map g) =
      (parted rows q b).map g := by
  have hselect : select ((tagged rows q).map fun t => decide (t.1 = b + 1))
      ((tagged rows q).map fun t => g t.2) = _ := select_map _ _
  have hmask : (tagged rows q).map (fun t => decide (t.1 = b + 1)) =
      (binIndex (rows.map q) chart_bins).map fun bin => decide (bin = b + 1) := by
    rw [← tagged_fst, List.map_map]
    rfl
  rw [hmask, map_tagged] at hselect
  rw [hselect, parted, List.map_map]
  rfl

omit [Field K] in
theorem count_parted (b : ℕ) :
    ((binIndex (rows.map q) chart_bins).map fun bin => decide (bin = b + 1)).count true =
      (parted rows q b).length := by
  rw [parted, List.length_map, ← List.countP_eq_length_filter, ← tagged_fst, List.map_map,
    List.count_eq_countP, List.countP_map]
  congr 1
  funext t
  simp

/-- The bin of some rows. -/
def rowsBin (num : Elementary K) (e y m : R → Reading K) (bin : ℕ) (part : List R) : LiftBin K :=
  let bin_exposure := Reading.sum (part.map e)
  { bin := bin
    rows := part.length
    predicted := if Reading.lt (some 0) bin_exposure then
      Reading.div (Reading.sum (part.map m)) bin_exposure else some 0
    actual := if Reading.lt (some 0) bin_exposure then
      Reading.div (Reading.sum (part.map y)) bin_exposure else some 0
    exposure_years := bin_exposure.map num.round6 }

theorem liftOf_eq : liftOf num (rows.map e) (rows.map y) (rows.map m) =
    ((List.range chart_bins).filter fun b => parted rows (rateOf m e) b ≠ []).map fun b =>
      rowsBin num e y m (b + 1) (parted rows (rateOf m e) b) := by
  have hkept : ((List.range chart_bins).filter fun b => parted rows (rateOf m e) b ≠ []).map (fun b =>
      rowsBin num e y m (b + 1) (parted rows (rateOf m e) b)) =
      (List.range chart_bins).filterMap fun b => if parted rows (rateOf m e) b = [] then none
        else some (rowsBin num e y m (b + 1) (parted rows (rateOf m e) b)) := by
    rw [← List.filterMap_eq_map, List.filterMap_filter]
    apply List.filterMap_congr
    intro b _
    by_cases hb : parted rows (rateOf m e) b = [] <;> simp [hb]
  unfold liftOf
  rw [hkept, rates_map]
  apply List.filterMap_congr
  intro b _
  dsimp only
  rw [count_parted, liftBinOf, select_parted, select_parted, select_parted, count_parted]
  by_cases hb : parted rows (rateOf m e) b = []
  · rw [if_pos (List.length_eq_zero_iff.mpr hb), if_pos hb]
  · rw [if_neg (fun h => hb (List.length_eq_zero_iff.mp h)), if_neg hb]
    rfl

omit [Field K] in
theorem sum_parted {M : Type} [AddCommMonoid M] (g : R → M) :
    ((List.range chart_bins).map fun b => ((parted rows q b).map g).sum).sum = (rows.map g).sum := by
  have hfibres : ((List.range chart_bins).map fun b =>
      (((tagged rows q).filter fun t => t.1 - 1 = b).map fun t => g t.2).sum).sum =
        ((tagged rows q).map fun t => g t.2).sum :=
    sum_fibres List.nodup_range fun t ht => (tagged_bounds t ht).1
  rw [map_tagged] at hfibres
  rw [← hfibres]
  congr 1
  apply List.map_congr_left
  intro b _
  rw [parted, List.map_map]
  congr 2
  apply List.filter_congr
  intro t ht
  have hpos := (tagged_bounds t ht).2
  rw [decide_eq_decide]
  omega

end Lift

/-! ## The totals of a lift -/

section Totals

variable {num : Elementary K} {rows : List R} {e y m q : R → Reading K}

omit [Field K] in
theorem sum_filter_parted {M : Type} [AddCommMonoid M] (g : R → M) :
    (((List.range chart_bins).filter fun b => parted rows q b ≠ []).map fun b =>
      ((parted rows q b).map g).sum).sum = (rows.map g).sum := by
  rw [← sum_parted (q := q) g]
  generalize List.range chart_bins = bins
  induction bins with
  | nil => rfl
  | cons b bins ih =>
    by_cases hb : parted rows q b = []
    · rw [List.filter_cons_of_neg (by simpa using hb), ih, List.map_cons, List.sum_cons, hb,
        List.map_nil, List.sum_nil, zero_add]
    · rw [List.filter_cons_of_pos (by simpa using hb), List.map_cons, List.map_cons, List.sum_cons,
        List.sum_cons, ih]

theorem sum_lift_rows :
    ((liftOf num (rows.map e) (rows.map y) (rows.map m)).map LiftBin.rows).sum = rows.length := by
  have hsum : (((List.range chart_bins).filter fun b => parted rows (rateOf m e) b ≠ []).map fun b =>
      ((parted rows (rateOf m e) b).map fun _ => 1).sum).sum = (rows.map fun _ => 1).sum :=
    sum_filter_parted _
  rw [liftOf_eq, List.map_map]
  simpa [Function.comp_def, rowsBin] using hsum

variable [IsStrictOrderedRing K] {eK yK mK : R → K}

omit [Field K] [IsStrictOrderedRing K] in
theorem mem_of_parted {b : ℕ} {r : R} (hr : r ∈ parted rows q b) : r ∈ rows := by
  obtain ⟨t, ht, rfl⟩ := List.mem_map.mp hr
  have hmem : t.2 ∈ (tagged rows q).map Prod.snd := List.mem_map_of_mem (List.mem_filter.mp ht).1
  rwa [tagged_snd] at hmem

theorem rowsBin_totals (he : ∀ r ∈ rows, e r = some (eK r) ∧ 0 < eK r)
    (hy : ∀ r ∈ rows, y r = some (yK r)) (hm : ∀ r ∈ rows, m r = some (mK r))
    (hround : num.round6 = id) {b : ℕ} (hb : parted rows q b ≠ []) (bin : ℕ) :
    Reading.mul (rowsBin num e y m bin (parted rows q b)).exposure_years
        (rowsBin num e y m bin (parted rows q b)).predicted =
      some ((parted rows q b).map mK).sum ∧
    Reading.mul (rowsBin num e y m bin (parted rows q b)).exposure_years
        (rowsBin num e y m bin (parted rows q b)).actual =
      some ((parted rows q b).map yK).sum := by
  have hexposure : Reading.sum ((parted rows q b).map e) = some ((parted rows q b).map eK).sum :=
    sum_numbers fun r hr => (he r (mem_of_parted hr)).1
  have hpredicted : Reading.sum ((parted rows q b).map m) = some ((parted rows q b).map mK).sum :=
    sum_numbers fun r hr => hm r (mem_of_parted hr)
  have hactual : Reading.sum ((parted rows q b).map y) = some ((parted rows q b).map yK).sum :=
    sum_numbers fun r hr => hy r (mem_of_parted hr)
  have hpos : 0 < ((parted rows q b).map eK).sum := by
    apply List.sum_pos
    · intro x hx
      obtain ⟨r, hr, rfl⟩ := List.mem_map.mp hx
      exact (he r (mem_of_parted hr)).2
    · simpa using hb
  simp only [rowsBin, hexposure, hpredicted, hactual, Reading.lt, hpos, decide_true, if_true, hround,
    Option.map_id, id_eq]
  constructor <;> exact congrArg some (mul_div_cancel₀ _ hpos.ne')

theorem sum_lift_totals (he : ∀ r ∈ rows, e r = some (eK r) ∧ 0 < eK r)
    (hy : ∀ r ∈ rows, y r = some (yK r)) (hm : ∀ r ∈ rows, m r = some (mK r))
    (hround : num.round6 = id) :
    Reading.sum ((liftOf num (rows.map e) (rows.map y) (rows.map m)).map fun b =>
        Reading.mul b.exposure_years b.predicted) = some (rows.map mK).sum ∧
    Reading.sum ((liftOf num (rows.map e) (rows.map y) (rows.map m)).map fun b =>
        Reading.mul b.exposure_years b.actual) = some (rows.map yK).sum := by
  rw [liftOf_eq, List.map_map, List.map_map, ← sum_filter_parted (q := rateOf m e) mK,
    ← sum_filter_parted (q := rateOf m e) yK]
  constructor
  · apply sum_numbers
    intro b hb
    exact (rowsBin_totals he hy hm hround (by simpa using (List.mem_filter.mp hb).2) (b + 1)).1
  · apply sum_numbers
    intro b hb
    exact (rowsBin_totals he hy hm hround (by simpa using (List.mem_filter.mp hb).2) (b + 1)).2

end Totals

/-! ## Cells -/

section Cells

variable {num : Elementary K} {rows rows' : List R} {w e y m : R → Reading K} {level : R → Option String}
  {weighted : Bool} {factor : String}

theorem mem_levelsOf {levels : List (Option String)} {l : String} :
    l ∈ levelsOf levels ↔ some l ∈ levels := by
  rw [levelsOf, List.mem_insertionSort, List.mem_dedup, List.reduceOption, List.mem_filterMap]
  simp

theorem nodup_levelsOf {levels : List (Option String)} : (levelsOf levels).Nodup :=
  ((List.perm_insertionSort _ _).nodup_iff).mpr (List.nodup_dedup _)

theorem levelsOf_perm {levels levels' : List (Option String)} (h : levels.Perm levels') :
    levelsOf levels = levelsOf levels' := by
  have hperm : (levelsOf levels).Perm (levelsOf levels') := by
    rw [List.perm_ext_iff_of_nodup nodup_levelsOf nodup_levelsOf]
    intro l
    rw [mem_levelsOf, mem_levelsOf, h.mem_iff]
  have hsorted : ∀ levels, (levelsOf levels).Pairwise (· ≤ ·) := fun levels =>
    List.pairwise_insertionSort _ _
  exact hperm.eq_of_pairwise (fun a b _ _ hab hba => le_antisymm hab hba) (hsorted _) (hsorted _)

/-- The cell of some rows. -/
def rowsCell (num : Elementary K) (weighted : Bool) (w e y m : R → Reading K) (factor level : String)
    (part : List R) : Option (AeCell K) :=
  let actual := Reading.sum (part.map fun r => Reading.mul (w r) (y r))
  let expected := Reading.sum (part.map fun r => Reading.mul (w r) (m r))
  if Reading.le expected (some 0) then none
  else
    let ratio := Reading.div actual expected
    let sum_w := Reading.sum (part.map w)
    let half : Option (Reading K) :=
      if weighted then
        if Reading.lt (some 0) actual && Reading.lt (some 0) sum_w then
          some (Reading.div (Reading.mul ratio (some num.normal_975)) (sum_w.bind num.sqrt))
        else none
      else if Reading.lt (some 0) actual then
        some (Reading.div (Reading.mul (some num.normal_975) (actual.bind num.sqrt)) expected)
      else none
    some {
      factor := factor
      level := level
      actual := actual
      expected := expected
      ae := ratio
      ci_95 := half.map fun h => (Reading.sub ratio h, Reading.add ratio h)
      exposure_years := (Reading.sum (part.map e)).map num.round6 }

theorem aeCell_eq (l : String) :
    aeCell num weighted (rows.map w) (rows.map e) (rows.map y) (rows.map m) factor (rows.map level) l =
      rowsCell num weighted w e y m factor l (rows.filter fun r => level r = some l) := by
  have hmask : (rows.map level).map (fun k => decide (k = some l)) =
      rows.map fun r => decide (level r = some l) := by
    rw [List.map_map]
    rfl
  unfold aeCell rowsCell
  rw [hmask, List.zipWith_map, List.zipWith_self, List.zipWith_map, List.zipWith_self]
  simp only [select_map]

theorem rowsCell_perm {l : String} {part part' : List R} (h : part.Perm part') :
    rowsCell num weighted w e y m factor l part = rowsCell num weighted w e y m factor l part' := by
  unfold rowsCell
  rw [sum_perm (h.map fun r => Reading.mul (w r) (y r)), sum_perm (h.map fun r => Reading.mul (w r) (m r)),
    sum_perm (h.map w), sum_perm (h.map e)]

end Cells

/-! ## The totals of cells -/

section CellTotals

variable [IsStrictOrderedRing K] {num : Elementary K} {rows : List R} {w e y m : R → Reading K}
  {level : R → Option String} {weighted : Bool} {factor : String} {wK yK mK : R → K}

/-- The rows of numbers that cells are taken over: no weight is negative and each prediction is
positive. -/
structure Weighed (rows : List R) (w y m : R → Reading K) (wK yK mK : R → K) : Prop where
  weight : ∀ r ∈ rows, w r = some (wK r) ∧ 0 ≤ wK r
  actual : ∀ r ∈ rows, y r = some (yK r)
  predicted : ∀ r ∈ rows, m r = some (mK r) ∧ 0 < mK r

omit [IsStrictOrderedRing K] in
theorem Weighed.sums (h : Weighed rows w y m wK yK mK) {part : List R} (hpart : ∀ r ∈ part, r ∈ rows) :
    Reading.sum (part.map fun r => Reading.mul (w r) (y r)) =
      some (part.map fun r => wK r * yK r).sum ∧
    Reading.sum (part.map fun r => Reading.mul (w r) (m r)) =
      some (part.map fun r => wK r * mK r).sum := by
  constructor
  · apply sum_numbers
    intro r hr
    rw [(h.weight r (hpart r hr)).1, h.actual r (hpart r hr)]
    rfl
  · apply sum_numbers
    intro r hr
    rw [(h.weight r (hpart r hr)).1, (h.predicted r (hpart r hr)).1]
    rfl

/-- Of rows that nothing is expected of nothing is counted. -/
theorem Weighed.nothing (h : Weighed rows w y m wK yK mK) {part : List R}
    (hpart : ∀ r ∈ part, r ∈ rows) (hnothing : (part.map fun r => wK r * mK r).sum ≤ 0) :
    (part.map fun r => wK r * mK r).sum = 0 ∧ (part.map fun r => wK r * yK r).sum = 0 := by
  have hnonneg : ∀ x ∈ part.map (fun r => wK r * mK r), 0 ≤ x := by
    intro x hx
    obtain ⟨r, hr, rfl⟩ := List.mem_map.mp hx
    exact mul_nonneg (h.weight r (hpart r hr)).2 (h.predicted r (hpart r hr)).2.le
  have hzero : (part.map fun r => wK r * mK r).sum = 0 :=
    le_antisymm hnothing (List.sum_nonneg hnonneg)
  refine ⟨hzero, List.sum_eq_zero fun x hx => ?_⟩
  obtain ⟨r, hr, rfl⟩ := List.mem_map.mp hx
  have hterm : wK r * mK r = 0 := by
    apply le_antisymm _ (hnonneg _ (List.mem_map.mpr ⟨r, hr, rfl⟩))
    rw [← hzero]
    exact List.single_le_sum hnonneg _ (List.mem_map.mpr ⟨r, hr, rfl⟩)
  rw [(mul_eq_zero.mp hterm).resolve_right (h.predicted r (hpart r hr)).2.ne', zero_mul]

theorem Weighed.rowsCell (h : Weighed rows w y m wK yK mK) {part : List R}
    (hpart : ∀ r ∈ part, r ∈ rows) (l : String) :
    (Comparison.rowsCell num weighted w e y m factor l part = none ∧
      (part.map fun r => wK r * mK r).sum = 0 ∧ (part.map fun r => wK r * yK r).sum = 0) ∨
    ∃ c, Comparison.rowsCell num weighted w e y m factor l part = some c ∧ c.factor = factor ∧
      c.expected = some (part.map fun r => wK r * mK r).sum ∧
      c.actual = some (part.map fun r => wK r * yK r).sum := by
  obtain ⟨hactual, hexpected⟩ := h.sums hpart
  unfold Comparison.rowsCell
  dsimp only
  rw [hexpected, hactual]
  by_cases hnothing : (part.map fun r => wK r * mK r).sum ≤ 0
  · exact Or.inl ⟨if_pos (by simpa [Reading.le] using hnothing), h.nothing hpart hnothing⟩
  · exact Or.inr ⟨_, if_neg (by simpa [Reading.le] using hnothing), rfl, rfl, rfl⟩

/-- The cells of a factor. -/
def factorCells (num : Elementary K) (weighted : Bool) (w e y m : R → Reading K) (rows : List R)
    (term : String × (R → Option String)) : List (AeCell K) :=
  (levelsOf (rows.map term.2)).filterMap fun l =>
    rowsCell num weighted w e y m term.1 l (rows.filter fun r => term.2 r = some l)

omit [IsStrictOrderedRing K] in
theorem aeByFactor_eq (factors : List (String × (R → Option String))) :
    aeByFactor num weighted (rows.map w) (rows.map e) (rows.map y) (rows.map m)
        (factors.map fun f => (f.1, rows.map f.2)) =
      factors.flatMap (factorCells num weighted w e y m rows) := by
  unfold aeByFactor
  rw [List.flatMap_map]
  congr 1
  funext f
  exact List.filterMap_congr fun l _ => aeCell_eq l

omit [IsStrictOrderedRing K] in
theorem factor_of_mem {term : String × (R → Option String)} {c : AeCell K}
    (hc : c ∈ factorCells num weighted w e y m rows term) : c.factor = term.1 := by
  obtain ⟨l, -, hl⟩ := List.mem_filterMap.mp hc
  unfold Comparison.rowsCell at hl
  dsimp only at hl
  rw [Option.ite_none_left_eq_some] at hl
  obtain rfl := Option.some.inj hl.2
  rfl

/-- The cells of a factor without nulls have the totals of the rows. -/
theorem sum_factorCells (h : Weighed rows w y m wK yK mK) {term : String × (R → Option String)}
    (hlevels : ∀ r ∈ rows, term.2 r ≠ none) :
    Reading.sum ((factorCells num weighted w e y m rows term).map AeCell.expected) =
      some (rows.map fun r => wK r * mK r).sum ∧
    Reading.sum ((factorCells num weighted w e y m rows term).map AeCell.actual) =
      some (rows.map fun r => wK r * yK r).sum := by
  have hlabels : ∀ f : R → K,
      ((levelsOf (rows.map term.2)).map fun l =>
        ((rows.filter fun r => term.2 r = some l).map f).sum).sum = (rows.map f).sum := by
    intro f
    have hnodup : ((levelsOf (rows.map term.2)).map some).Nodup :=
      nodup_levelsOf.map (Option.some_injective _)
    have hfibres := sum_fibres (M := K) hnodup (f := f) (l := rows) fun r hr => by
      obtain ⟨l, hl⟩ := Option.ne_none_iff_exists'.mp (hlevels r hr)
      rw [List.mem_map]
      exact ⟨l, mem_levelsOf.mpr (List.mem_map.mpr ⟨r, hr, hl⟩), hl.symm⟩
    rw [List.map_map] at hfibres
    exact hfibres
  have hcells : ∀ labels : List String,
      Reading.sum ((labels.filterMap fun l => rowsCell num weighted w e y m term.1 l
          (rows.filter fun r => term.2 r = some l)).map AeCell.expected) =
        some (labels.map fun l => ((rows.filter fun r => term.2 r = some l).map
          fun r => wK r * mK r).sum).sum ∧
      Reading.sum ((labels.filterMap fun l => rowsCell num weighted w e y m term.1 l
          (rows.filter fun r => term.2 r = some l)).map AeCell.actual) =
        some (labels.map fun l => ((rows.filter fun r => term.2 r = some l).map
          fun r => wK r * yK r).sum).sum := by
    intro labels
    induction labels with
    | nil => exact ⟨rfl, rfl⟩
    | cons l labels ih =>
      have hpart : ∀ r ∈ rows.filter (fun r => term.2 r = some l), r ∈ rows :=
        fun r hr => (List.mem_filter.mp hr).1
      have hcell : (rowsCell num weighted w e y m term.1 l
          (rows.filter fun r => term.2 r = some l) = none ∧ _) ∨ _ := h.rowsCell hpart l
      rcases hcell with
        ⟨hnone, hexpected, hactual⟩ | ⟨c, hsome, -, hexpected, hactual⟩
      · simp only [List.filterMap_cons, hnone, List.map_cons, List.sum_cons, hexpected, hactual, zero_add]
        exact ih
      · simp only [List.filterMap_cons, hsome, List.map_cons, List.sum_cons]
        have hsplit : ∀ x (l : List (Reading K)), Reading.sum (x :: l) =
          Reading.add x (Reading.sum l) := fun _ _ => rfl
        rw [hsplit, hsplit, ih.1, ih.2, hexpected, hactual]
        exact ⟨rfl, rfl⟩
  obtain ⟨hexpected, hactual⟩ := hcells (levelsOf (rows.map term.2))
  rw [hlabels] at hexpected hactual
  exact ⟨hexpected, hactual⟩

end CellTotals

/-! ## Another order of the rows -/

section Reordered

variable {num : Elementary K} {rows rows' : List R} {e y m q : R → Reading K}

def before (rows : List R) (q : R → Reading K) (r : R) : ℕ :=
  rows.countP fun r' => (q r').key < (q r).key

omit [Field K] [LinearOrder K] in
theorem keys_map {i : ℕ} (hi : i < rows.length) : keys (rows.map q) i = (q rows[i]).key := by
  simp [keys, at?, hi]

omit [Field K] [LinearOrder K] in
theorem keys_range : (List.range rows.length).map (keys (rows.map q)) = rows.map fun r => (q r).key := by
  apply List.ext_getElem
  · simp
  · intro i h1 h2
    rw [List.length_map] at h2
    rw [List.getElem_map, List.getElem_map, List.getElem_range, keys_map h2]

omit [Field K] in
theorem binIndex_strict (h : (rows.map q).Nodup) : binIndex (rows.map q) chart_bins =
    rows.map fun r => block rows.length chart_bins (before rows q r) + 1 := by
  have hstrict := keys_strict h
  rw [List.length_map] at hstrict
  have hpairwise : (argsort (keys (rows.map q)) rows.length).Pairwise fun i j =>
      keys (rows.map q) i < keys (rows.map q) j := by
    apply ((pairwise_argsort (keys (rows.map q)) rows.length).and nodup_argsort).imp_of_mem
    intro i j hi hj hij
    exact lt_of_le_of_ne hij.1 fun heq =>
      hij.2 (hstrict i (mem_argsort.mp hi) j (mem_argsort.mp hj) heq)
  have hbefore : ∀ i (hi : i < rows.length),
      place (keys (rows.map q)) rows.length i = before rows q rows[i] := by
    intro i hi
    rw [place, idxOf_eq_countP hpairwise (mem_argsort.mpr hi), (argsort_perm _ _).countP_eq, before,
      keys_map hi]
    have hcount : ∀ κ : WithTop K, (List.range rows.length).countP (fun j => keys (rows.map q) j < κ) =
        rows.countP fun r => (q r).key < κ := by
      intro κ
      have hmap : ((List.range rows.length).map (keys (rows.map q))).countP (fun x => decide (x < κ)) =
          (rows.map fun r => (q r).key).countP fun x => decide (x < κ) := by rw [keys_range]
      rwa [List.countP_map, List.countP_map] at hmap
    exact hcount _
  rw [binIndex_eq _ (by decide), List.length_map]
  apply List.ext_getElem
  · simp
  · intro i h1 h2
    rw [List.length_map] at h2
    rw [List.getElem_map, List.getElem_map, List.getElem_range, hbefore i h2]

omit [Field K] in
theorem parted_strict (h : (rows.map q).Nodup) (b : ℕ) :
    parted rows q b =
      rows.filter fun r => block rows.length chart_bins (before rows q r) = b := by
  have hzip : ∀ (f : R → ℕ) (l : List R),
      (((l.map f).zip l).filter fun t => t.1 = b + 1).map Prod.snd = l.filter fun r => f r = b + 1 := by
    intro f l
    induction l with
    | nil => rfl
    | cons r l ih =>
      by_cases hr : f r = b + 1
      · simpa [hr] using ih
      · simpa [hr] using ih
  rw [parted, tagged, binIndex_strict h, hzip]
  apply List.filter_congr
  intro r _
  simp

omit [Field K] in
theorem parted_perm (h : (rows.map q).Nodup) (hperm : rows'.Perm rows) (b : ℕ) :
    (parted rows' q b).Perm (parted rows q b) := by
  have h' : (rows'.map q).Nodup := (hperm.map q).nodup_iff.mpr h
  rw [parted_strict h, parted_strict h']
  have hbefore : ∀ r, before rows' q r = before rows q r := fun r => hperm.countP_eq _
  simp only [hbefore, hperm.length_eq]
  exact hperm.filter _

theorem liftOf_perm (h : (rows.map (rateOf m e)).Nodup) (hperm : rows'.Perm rows) :
    liftOf num (rows'.map e) (rows'.map y) (rows'.map m) =
      liftOf num (rows.map e) (rows.map y) (rows.map m) := by
  have hparts := parted_perm h hperm
  have hbin : ∀ {part part' : List R} (bin : ℕ), part.Perm part' →
      rowsBin num e y m bin part = rowsBin num e y m bin part' := by
    intro part part' bin hpart
    unfold rowsBin
    rw [hpart.length_eq, sum_perm (hpart.map e), sum_perm (hpart.map y), sum_perm (hpart.map m)]
  have hnone : ∀ b, parted rows' (rateOf m e) b = [] ↔ parted rows (rateOf m e) b = [] := by
    intro b
    constructor
    · intro hb
      exact List.nil_perm.mp (hb ▸ hparts b)
    · intro hb
      exact List.perm_nil.mp (hb ▸ hparts b)
  rw [liftOf_eq, liftOf_eq]
  have hfilter : (List.range chart_bins).filter (fun b => parted rows' (rateOf m e) b ≠ []) =
      (List.range chart_bins).filter fun b => parted rows (rateOf m e) b ≠ [] := by
    apply List.filter_congr
    intro b _
    rw [decide_eq_decide, Ne, Ne, hnone]
  rw [hfilter]
  exact List.map_congr_left fun b _ => hbin (b + 1) (hparts b)

/-! ## The Gini in another order -/

def sortedRows (rows : List R) (q : R → Reading K) : List R :=
  (argsort (keys (rows.map q)) rows.length).filterMap fun i => rows[i]?

omit [Field K] in
theorem sortedRows_perm : (sortedRows rows q).Perm rows := by
  have hall : ∀ l : List R, (List.range l.length).filterMap (fun i => l[i]?) = l := by
    intro l
    induction l with
    | nil => rfl
    | cons r l ih =>
      rw [List.length_cons, List.range_succ_eq_map, List.filterMap_cons_some (by rfl),
        List.filterMap_map]
      exact congrArg _ ih
  have hperm := (argsort_perm (keys (rows.map q)) rows.length).filterMap fun i => rows[i]?
  rwa [hall] at hperm

omit [Field K] in
theorem pairwise_sortedRows :
    (sortedRows rows q).Pairwise fun r r' => (q r).key ≤ (q r').key := by
  rw [sortedRows, List.pairwise_filterMap]
  apply (pairwise_argsort _ _).imp_of_mem
  intro i j hi hj hij r hr r' hr'
  have hi := mem_argsort.mp hi
  have hj := mem_argsort.mp hj
  rw [keys_map hi, keys_map hj] at hij
  rw [List.getElem?_eq_getElem hi, Option.some.injEq] at hr
  rw [List.getElem?_eq_getElem hj, Option.some.injEq] at hr'
  rwa [← hr, ← hr']

omit [Field K] in
theorem map_sortedRows (g : R → Reading K) :
    (argsort (keys (rows.map q)) rows.length).map (at? (rows.map g)) = (sortedRows rows q).map g := by
  rw [sortedRows, List.map_filterMap, ← List.filterMap_eq_map]
  apply List.filterMap_congr
  intro i hi
  have hi := mem_argsort.mp hi
  simp [at?, hi]

omit [Field K] in
theorem sortedRows_eq (h : (rows.map q).Nodup) (hperm : rows'.Perm rows) :
    sortedRows rows' q = sortedRows rows q := by
  refine List.Perm.eq_of_pairwise (fun r r' hr hr' hle hle' => ?_) pairwise_sortedRows
    pairwise_sortedRows ((sortedRows_perm.trans hperm).trans sortedRows_perm.symm)
  have hr := hperm.mem_iff.mp (sortedRows_perm.mem_iff.mp hr)
  have hr' := sortedRows_perm.mem_iff.mp hr'
  exact List.inj_on_of_nodup_map h hr hr' (key_injective (le_antisymm hle hle'))

theorem coefficient_perm (h : (rows.map q).Nodup) (hperm : rows'.Perm rows) :
    coefficient (rows'.map y) (rows'.map e) (rows'.map q) =
      coefficient (rows.map y) (rows.map e) (rows.map q) := by
  unfold coefficient
  dsimp only
  rw [List.length_map, List.length_map, map_sortedRows, map_sortedRows, map_sortedRows, map_sortedRows,
    sortedRows_eq h hperm, sum_perm (hperm.map e), sum_perm (hperm.map y)]

variable [IsStrictOrderedRing K] {eK yK : R → K}

omit [IsStrictOrderedRing K] in
theorem spread_rateOrdered (predicted : List K) :
    spread (rateOrdered (rows.map yK) (rows.map eK) predicted) =
      spread (rows.map fun r => (eK r, yK r)) := by
  have hrows : ordered (rows.map eK) (rows.map yK) (List.range rows.length) =
      rows.map fun r => (eK r, yK r) := by
    apply List.ext_getElem
    · simp [ordered]
    · intro i h1 h2
      rw [List.length_map] at h2
      simp [ordered, h2]
  rw [← hrows]
  apply spread_perm
  rw [rateOrdered, ordered, ordered, List.length_map]
  exact (argsort_perm _ _).map _

theorem oracle_perm (he : ∀ r ∈ rows, 0 < eK r) (hA : (rows.map yK).sum ≠ 0) (hperm : rows'.Perm rows) :
    rateCoefficient (rows'.map yK) (rows'.map eK) (rows'.map yK) =
      rateCoefficient (rows.map yK) (rows.map eK) (rows.map yK) := by
  have hrated : ∀ rows : List R, (∀ r ∈ rows, 0 < eK r) →
      RatedBook (rows.map yK) (rows.map yK) (rows.map eK) := by
    intro rows he
    refine ⟨rfl, by rw [List.length_map, List.length_map], fun x hx => ?_⟩
    obtain ⟨r, hr, rfl⟩ := List.mem_map.mp hx
    exact he r hr
  have h := hrated rows he
  have h' := hrated rows' fun r hr => he r (hperm.mem_iff.mp hr)
  have hsum := (hperm.map yK).sum_eq
  rw [rateCoefficient_eq h hA, rateCoefficient_eq h' (by rwa [hsum]),
    cross_rateOrdered h fun _ _ _ _ hlt => hlt, cross_rateOrdered h' fun _ _ _ _ hlt => hlt,
    spread_rateOrdered, spread_rateOrdered, spread_perm (hperm.map _), hsum, (hperm.map eK).sum_eq]

theorem gini_perm (h : (rows.map (rateOf m e)).Nodup) (he : ∀ r ∈ rows, e r = some (eK r) ∧ 0 < eK r)
    (hy : ∀ r ∈ rows, y r = some (yK r)) (hperm : rows'.Perm rows) :
    gini (rows'.map y) (rows'.map m) (rows'.map e) = gini (rows.map y) (rows.map m) (rows.map e) := by
  have hmodel : coefficient (rows'.map y) (rows'.map e) (rates (rows'.map m) (rows'.map e)) =
      coefficient (rows.map y) (rows.map e) (rates (rows.map m) (rows.map e)) := by
    rw [rates_map, rates_map, coefficient_perm h hperm]
  unfold gini
  rw [hmodel, sum_perm (hperm.map y), sum_perm (hperm.map e)]
  by_cases hzero : (Reading.le (Reading.sum (rows.map y)) (some 0) ||
      Reading.le (Reading.sum (rows.map e)) (some 0)) = true
  · rw [if_pos hzero, if_pos hzero]
  · have hnumbers : ∀ {f : R → Reading K} {g : R → K} {l : List R}, (∀ r ∈ l, f r = some (g r)) →
        l.map f = numbered (l.map g) := by
      intro f g l hl
      rw [List.map_congr_left hl, numbered, List.map_map]
      rfl
    have hexposure : ∀ r ∈ rows, e r = some (eK r) := fun r hr => (he r hr).1
    have hA : (rows.map yK).sum ≠ 0 := by
      intro hA
      apply hzero
      rw [sum_numbers hy, hA]
      simp [Reading.le]
    have hperfect : coefficient (rows'.map y) (rows'.map e) (rates (rows'.map y) (rows'.map e)) =
        coefficient (rows.map y) (rows.map e) (rates (rows.map y) (rows.map e)) := by
      rw [hnumbers hy, hnumbers hexposure, hnumbers fun r hr => hy r (hperm.mem_iff.mp hr),
        hnumbers fun r hr => hexposure r (hperm.mem_iff.mp hr)]
      exact oracle_perm (fun r hr => (he r hr).2) hA hperm
    rw [hperfect]

end Reordered

/-! ## A partition -/

theorem filter_flatMap_key {α β : Type} {key : α → String} {tag : β → String} {l : List α}
    {f : α → List β} (hnodup : (l.map key).Nodup) {a : α} (ha : a ∈ l)
    (htag : ∀ b ∈ l, ∀ x ∈ f b, tag x = key b) : (l.flatMap f).filter (fun x => tag x = key a) = f a := by
  induction l with
  | nil => cases ha
  | cons b l ih =>
    rw [List.map_cons, List.nodup_cons] at hnodup
    rw [List.forall_mem_cons] at htag
    rw [List.flatMap_cons, List.filter_append]
    rcases List.mem_cons.mp ha with rfl | hl
    · have hself : (f a).filter (fun x => tag x = key a) = f a :=
        List.filter_eq_self.mpr fun x hx => by simpa using htag.1 x hx
      have hnone : (l.flatMap f).filter (fun x => tag x = key a) = [] := by
        rw [List.filter_eq_nil_iff]
        intro x hx
        obtain ⟨c, hc, hx⟩ := List.mem_flatMap.mp hx
        rw [decide_eq_true_eq, htag.2 c hc x hx]
        exact fun heq => hnodup.1 (heq ▸ List.mem_map_of_mem hc)
      rw [hself, hnone, List.append_nil]
    · have hnone : (f b).filter (fun x => tag x = key a) = [] := by
        rw [List.filter_eq_nil_iff]
        intro x hx
        rw [decide_eq_true_eq, htag.1 x hx]
        exact fun heq => hnodup.1 (heq ▸ List.mem_map_of_mem hl)
      rw [hnone, List.nil_append, ih hnodup.2 hl htag.2]

section Partition

variable {num : Elementary K} {data : Book R K} {spec : ModelSpec K S} {predict : R → Reading K}
  {factors : List (String × (R → Option String))} {excluded : ℕ} {excluded_unknown : Option ℕ}
  {d d' : PartitionDiagnostics K} {rows' : List R} {yK wK eK mK : R → K}

def Book.reordered (data : Book R K) (rows : List R) : Book R K := { data with rows := rows }

/-- The partition of a frame whose rows have predictions and levels. -/
def rowPartition (num : Elementary K) (data : Book R K) (spec : ModelSpec K S)
    (factors : List (String × (R → Option String))) (predict : R → Reading K) (excluded : ℕ)
    (excluded_unknown : Option ℕ) : Except Refusal (PartitionDiagnostics K) :=
  partition num data spec (factors.map fun f => (f.1, data.rows.map f.2)) (data.rows.map predict) excluded
    excluded_unknown

/-- A frame of numbers, of positive weights and predictions and no negative A/E weight. -/
structure NumberFrame (data : Book R K) (spec : ModelSpec K S) (predict : R → Reading K)
    (yK wK eK mK : R → K) : Prop where
  response : ∀ r ∈ data.rows, data.cell spec.response_column r = some (yK r)
  ae_weight : ∀ r ∈ data.rows, aeWeightOf spec data r = some (wK r) ∧ 0 ≤ wK r
  weight : ∀ r ∈ data.rows, weightOf spec data r = some (eK r) ∧ 0 < eK r
  predicted : ∀ r ∈ data.rows, predict r = some (mK r) ∧ 0 < mK r

theorem NumberFrame.weighed (h : NumberFrame data spec predict yK wK eK mK) :
    Weighed data.rows (aeWeightOf spec data) (data.cell spec.response_column) predict wK yK mK :=
  ⟨h.ae_weight, h.response, h.predicted⟩

theorem rowPartition_ok
    (h : rowPartition num data spec factors predict excluded excluded_unknown = .ok d) :
    d.rows = data.rows.length ∧
    d.ae_overall = (if Reading.lt (some 0) (expectedTotal spec data (data.rows.map predict)) then
      actualOverExpected spec data (data.numbers spec.response_column) (data.rows.map predict)
      else some 0) ∧
    d.ae_by_factor = factors.flatMap (factorCells num spec.weight.column?.isSome (aeWeightOf spec data)
      (weightOf spec data) (data.cell spec.response_column) predict data.rows) ∧
    d.lift = liftOf num (data.rows.map (weightOf spec data))
      (data.rows.map (data.cell spec.response_column)) (data.rows.map predict) ∧
    (d.gini, d.gini_normalised) = gini (data.rows.map (data.cell spec.response_column))
      (data.rows.map predict) (data.rows.map (weightOf spec data)) ∧
    d.calibration = d.lift.map fun b => ⟨b.bin, b.rows, b.predicted, b.actual⟩ := by
  simp only [rowPartition, partition, ensure_bind_eq_ok, pure_eq_ok] at h
  obtain ⟨-, -, rfl⟩ := h
  refine ⟨rfl, rfl, ?_, ?_, ?_, rfl⟩
  · dsimp only
    rw [aeWeights_eq, weights_eq, Book.numbers, aeByFactor_eq]
  · dsimp only
    rw [weights_eq, Book.numbers]
  · dsimp only
    rw [weights_eq, Book.numbers]

omit [LinearOrder K] in
theorem expectedTotal_eq : expectedTotal spec data (data.rows.map predict) =
    Reading.sum (data.rows.map fun r => Reading.mul (aeWeightOf spec data r) (predict r)) := by
  rw [expectedTotal, aeWeights_eq, List.zipWith_map, List.zipWith_self]

omit [LinearOrder K] in
theorem actualTotal_eq : actualOverExpected spec data (data.numbers spec.response_column)
    (data.rows.map predict) = Reading.div (Reading.sum (data.rows.map fun r =>
      Reading.mul (aeWeightOf spec data r) (data.cell spec.response_column r)))
      (expectedTotal spec data (data.rows.map predict)) := by
  rw [actualOverExpected, aeWeights_eq, Book.numbers, List.zipWith_map, List.zipWith_self]

omit [LinearOrder K] in
theorem aeWeightOf_none (h : declared data spec.weight.column? = none) (r : R) :
    aeWeightOf spec data r = some 1 := by
  unfold aeWeightOf
  rw [h]

variable [IsStrictOrderedRing K]

/-- What the charts of a partition add up to: the lift to the plain totals, and the cells of each factor
to the totals of the A/E weights, whose ratio is the A/E. -/
structure AddsUp (num : Elementary K) (data : Book R K) (spec : ModelSpec K S)
    (factors : List (String × (R → Option String))) (d : PartitionDiagnostics K) (yK wK mK : R → K) :
    Prop where
  lift : num.round6 = id →
    Reading.sum (d.lift.map fun b => Reading.mul b.exposure_years b.predicted) =
      some (data.rows.map mK).sum ∧
    Reading.sum (d.lift.map fun b => Reading.mul b.exposure_years b.actual) =
      some (data.rows.map yK).sum
  cells : ∀ f ∈ factors,
    Reading.sum ((d.ae_by_factor.filter fun c => c.factor = f.1).map AeCell.expected) =
      some (data.rows.map fun r => wK r * mK r).sum ∧
    Reading.sum ((d.ae_by_factor.filter fun c => c.factor = f.1).map AeCell.actual) =
      some (data.rows.map fun r => wK r * yK r).sum
  ae_overall : 0 < (data.rows.map fun r => wK r * mK r).sum → d.ae_overall =
    some ((data.rows.map fun r => wK r * yK r).sum / (data.rows.map fun r => wK r * mK r).sum)
  unweighted : declared data spec.weight.column? = none →
    (data.rows.map fun r => wK r * mK r) = data.rows.map mK ∧
      (data.rows.map fun r => wK r * yK r) = data.rows.map yK

theorem addsUp (h : rowPartition num data spec factors predict excluded excluded_unknown = .ok d)
    (hframe : NumberFrame data spec predict yK wK eK mK) (hslugs : (factors.map Prod.fst).Nodup)
    (hlevels : ∀ f ∈ factors, ∀ r ∈ data.rows, f.2 r ≠ none) :
    AddsUp num data spec factors d yK wK mK := by
  obtain ⟨-, hae, hcells, hlift, -, -⟩ := rowPartition_ok h
  have hpredicted : ∀ r ∈ data.rows, predict r = some (mK r) := fun r hr => (hframe.predicted r hr).1
  obtain ⟨hactual, hexpected⟩ := hframe.weighed.sums fun r hr => hr
  constructor
  · intro hround
    rw [hlift]
    exact sum_lift_totals hframe.weight hframe.response hpredicted hround
  · intro f hf
    have hown : d.ae_by_factor.filter (fun c => c.factor = f.1) =
        factorCells num spec.weight.column?.isSome (aeWeightOf spec data) (weightOf spec data)
          (data.cell spec.response_column) predict data.rows f := by
      rw [hcells]
      exact filter_flatMap_key hslugs hf fun g _ c hc => factor_of_mem hc
    rw [hown]
    exact sum_factorCells hframe.weighed (hlevels f hf)
  · intro hpos
    rw [hae, actualTotal_eq, expectedTotal_eq, hexpected, hactual,
      if_pos (by simpa [Reading.lt] using hpos)]
    rfl
  · intro hnone
    have hone : ∀ r ∈ data.rows, wK r = 1 := by
      intro r hr
      have hw := (hframe.ae_weight r hr).1
      rw [aeWeightOf_none hnone] at hw
      exact (Option.some.inj hw).symm
    constructor
    · exact List.map_congr_left fun r hr => by rw [hone r hr, one_mul]
    · exact List.map_congr_left fun r hr => by rw [hone r hr, one_mul]

/-- What a partition says in any order of its rows, its charts along the predicted rates where no two
rows have one rate. -/
structure OrderFree (data : Book R K) (spec : ModelSpec K S) (predict : R → Reading K)
    (d d' : PartitionDiagnostics K) : Prop where
  rows : d'.rows = d.rows
  ae_overall : d'.ae_overall = d.ae_overall
  ae_by_factor : d'.ae_by_factor = d.ae_by_factor
  ranked : (data.rows.map (rateOf predict (weightOf spec data))).Nodup →
    d'.lift = d.lift ∧ d'.calibration = d.calibration ∧
      ∀ yK wK eK mK, NumberFrame data spec predict yK wK eK mK →
        d'.gini = d.gini ∧ d'.gini_normalised = d.gini_normalised

theorem orderFree (h : rowPartition num data spec factors predict excluded excluded_unknown = .ok d)
    (hperm : rows'.Perm data.rows) {excluded' : ℕ} {excluded_unknown' : Option ℕ}
    (h' : rowPartition num (data.reordered rows') spec factors predict excluded' excluded_unknown' =
      .ok d') : OrderFree data spec predict d d' := by
  obtain ⟨hrows, hae, hcells, hlift, hgini, hcalibration⟩ := rowPartition_ok h
  obtain ⟨hrows', hae', hcells', hlift', hgini', hcalibration'⟩ := rowPartition_ok h'
  have hlifts : (data.rows.map (rateOf predict (weightOf spec data))).Nodup → d'.lift = d.lift := by
    intro hstrict
    rw [hlift, hlift']
    exact liftOf_perm hstrict hperm
  constructor
  · rw [hrows, hrows']
    exact hperm.length_eq
  · rw [hae, hae', actualTotal_eq, actualTotal_eq, expectedTotal_eq, expectedTotal_eq]
    rw [← sum_perm (hperm.map fun r => Reading.mul (aeWeightOf spec data r) (predict r)),
      ← sum_perm (hperm.map fun r =>
        Reading.mul (aeWeightOf spec data r) (data.cell spec.response_column r))]
    rfl
  · rw [hcells, hcells']
    congr 1
    funext f
    unfold factorCells
    have hlevels : (data.reordered rows').rows = rows' := rfl
    rw [hlevels, levelsOf_perm (hperm.map f.2)]
    apply List.filterMap_congr
    intro l _
    exact rowsCell_perm (hperm.filter _)
  · intro hstrict
    refine ⟨hlifts hstrict, by rw [hcalibration, hcalibration', hlifts hstrict],
      fun yK wK eK mK hframe => ?_⟩
    have hsame := gini_perm hstrict hframe.weight hframe.response hperm
    have hboth : (d'.gini, d'.gini_normalised) = (d.gini, d.gini_normalised) := by
      rw [hgini, hgini']
      exact hsame
    exact Prod.mk.inj hboth

/-- A partition describes one book: its lift has the rows and the plain totals of the frame, its cells
the totals of the A/E, and the order of the rows matters to the ranked charts alone, where rates tie. -/
theorem one_book (h : rowPartition num data spec factors predict excluded excluded_unknown = .ok d) :
    (d.lift.map LiftBin.rows).sum = d.rows ∧
    (∀ yK wK eK mK, NumberFrame data spec predict yK wK eK mK → (factors.map Prod.fst).Nodup →
      (∀ f ∈ factors, ∀ r ∈ data.rows, f.2 r ≠ none) → AddsUp num data spec factors d yK wK mK) ∧
    ∀ rows' excluded' excluded_unknown' d', rows'.Perm data.rows →
      rowPartition num (data.reordered rows') spec factors predict excluded' excluded_unknown' =
        .ok d' → OrderFree data spec predict d d' := by
  refine ⟨?_, fun yK wK eK mK hframe => addsUp h hframe, fun rows' _ _ d' hperm => orderFree h hperm⟩
  obtain ⟨hrows, -, -, hlift, -, -⟩ := rowPartition_ok h
  rw [hlift, hrows]
  exact sum_lift_rows

end Partition

/-! ## Two rows -/

def weightedBook (rows : List (ℚ × ℚ)) : Book (ℚ × ℚ) ℚ :=
  ⟨["claims", "weight"], rows, fun column row => if column = "claims" then some row.1 else some row.2⟩

def claimsSpec (weight : WeightSpec) : ModelSpec ℚ ℕ :=
  ⟨"claims", none, .none, weight, none, .glm .gaussian none none⟩

/-- Two rows without a weight column, in two areas. -/
theorem two_rows_add_up : ∃ d,
    rowPartition exactNumbers (weightedBook [(1, 1), (2, 3)]) (claimsSpec .none)
      [("area", fun row => some (if row.1 = 1 then "north" else "south"))] (fun row => some row.2) 0 none =
        .ok d ∧
    AddsUp exactNumbers (weightedBook [(1, 1), (2, 3)]) (claimsSpec .none)
      [("area", fun row => some (if row.1 = 1 then "north" else "south"))] d Prod.fst (fun _ => 1)
      Prod.snd := by
  have hok : (rowPartition exactNumbers (weightedBook [(1, 1), (2, 3)]) (claimsSpec .none)
      [("area", fun row => some (if row.1 = 1 then "north" else "south"))] (fun row => some row.2) 0
        none).isOk = true := by with_unfolding_all decide
  obtain ⟨d, hd⟩ := exists_ok hok
  refine ⟨d, hd, (one_book hd).2.1 Prod.fst (fun _ => 1) (fun _ => 1) Prod.snd ⟨?_, ?_, ?_, ?_⟩ (by simp)
    (by simp)⟩
  · simp [weightedBook, claimsSpec]
  · simp [aeWeightOf, declared, claimsSpec, WeightSpec.column?]
  · simp [weightOf, aeWeightOf, declared, claimsSpec, WeightSpec.column?, OffsetSpec.column?]
  · simp [weightedBook]

/-- Under a weight column the lift has the plain totals and the A/E the weighted ones, and where rates tie
the bins are those of the order of the rows. -/
theorem two_rows_two_books :
    (∃ d, rowPartition exactNumbers (weightedBook [(1, 1), (2, 3)]) (claimsSpec (.column "weight")) []
        (fun _ => some 1) 0 none = .ok d ∧
      Reading.sum (d.lift.map fun b => Reading.mul b.exposure_years b.predicted) = some 2 ∧
      expectedTotal (claimsSpec (.column "weight")) (weightedBook [(1, 1), (2, 3)]) [some 1, some 1] =
        some 4) ∧
    ∃ d d', rowPartition exactNumbers (weightedBook [(0, 1), (1, 1)]) (claimsSpec .none) []
        (fun _ => some 1) 0 none = .ok d ∧
      rowPartition exactNumbers ((weightedBook [(0, 1), (1, 1)]).reordered [(1, 1), (0, 1)])
        (claimsSpec .none) [] (fun _ => some 1) 0 none = .ok d' ∧
      d.lift.map LiftBin.actual = [some 0, some 1] ∧ d'.lift.map LiftBin.actual = [some 1, some 0] := by
  constructor
  · have hd : ((rowPartition exactNumbers (weightedBook [(1, 1), (2, 3)])
        (claimsSpec (.column "weight")) [] (fun _ => some 1) 0 none).toOption.map fun d =>
          Reading.sum (d.lift.map fun b => Reading.mul b.exposure_years b.predicted)) =
            some (some 2) := by with_unfolding_all decide
    obtain ⟨d, hd, hsum⟩ := Option.map_eq_some_iff.mp hd
    exact ⟨d, toOption_eq_some.mp hd, hsum, by with_unfolding_all decide⟩
  · have hd : ((rowPartition exactNumbers (weightedBook [(0, 1), (1, 1)]) (claimsSpec .none) []
        (fun _ => some 1) 0 none).toOption.map fun d => d.lift.map LiftBin.actual) =
          some [some 0, some 1] := by with_unfolding_all decide
    have hd' : ((rowPartition exactNumbers ((weightedBook [(0, 1), (1, 1)]).reordered [(1, 1), (0, 1)])
        (claimsSpec .none) [] (fun _ => some 1) 0 none).toOption.map fun d =>
          d.lift.map LiftBin.actual) = some [some 1, some 0] := by with_unfolding_all decide
    obtain ⟨d, hd, hactual⟩ := Option.map_eq_some_iff.mp hd
    obtain ⟨d', hd', hactual'⟩ := Option.map_eq_some_iff.mp hd'
    exact ⟨d, d', toOption_eq_some.mp hd, toOption_eq_some.mp hd', hactual, hactual'⟩

end GiPricing.Comparison
