import GiPricing.Data.Parts
import GiPricing.Order.Blocks
import Mathlib.Data.Int.Bitwise

/-! # The folds of a split

The three methods cut a table into numbered folds too: by a draw, by the hash of a key, or in blocks
of the rows in their order of time.
-/

namespace GiPricing.Data

open Failure GiPricing.Order

variable {V D : Type}

/-- What the folds take from the libraries besides. -/
structure Sorting (V : Type) where
  /-- The order of a column: a value that is not there is first. -/
  le : V → V → Bool
  /-- The places of the values in their order. -/
  argSort : List V → List ℕ
  /-- A float as a 64-bit integer. -/
  toInt64 : ℚ → ℤ

inductive FoldError
  | unknownMethod (method : String)
  | tooFewFolds (folds : ℤ)
  | temporalNeeds
  | noTimeColumn (column : String)
  | groupedNeedsKey
  | noKeyColumn (column : String)
  | overflow

section Definitions

variable (p : Primitives V D) (q : Sorting V) (params : SplitParams) (folds : ℤ)

/-- A product of 64-bit integers. -/
def wrap64 (z : ℤ) : ℤ := z.bmod (2 ^ 64)

def foldAt (u : ℚ) : ℤ := min (q.toInt64 (p.round (u * p.round folds))) (folds - 1)

def rankFold (height rank : ℕ) : ℤ := min (wrap64 (rank * folds) / height) (folds - 1)

/-- The number of the unit interval that each row is given. -/
def units (frame : Frame V D) : List ℚ :=
  if method params = "grouped_by_key" then
    frame.rows.map fun row => p.hash (params.seed.getD 0) (p.str (row (params.key_column.getD "")))
  else (List.range frame.rows.length).map (p.draw (params.seed.getD 0) frame.rows.length)

/-- `assign_folds`; a number of folds that is no 64-bit integer overflows. -/
def assignFolds (frame : Frame V D) : Except FoldError (List ℤ) := do
  ensure (method params ∈ ["random", "temporal", "grouped_by_key"])
    (.unknownMethod (method params))
  ensure (2 ≤ folds) (.tooFewFolds folds)
  if method params = "temporal" then
    let time_column ← require (params.time_column.filter (· ≠ "")) .temporalNeeds
    let _ ← require (frame.columns.lookup time_column) (.noTimeColumn time_column)
    ensure (folds < 2 ^ 63) .overflow
    let order := q.argSort (frame.rows.map fun row => row time_column)
    return (List.range frame.rows.length).map fun place =>
      rankFold folds frame.rows.length (order.idxOf place)
  else if method params = "grouped_by_key" then
    let key_column ← require (params.key_column.filter (· ≠ "")) .groupedNeedsKey
    let _ ← require (frame.columns.lookup key_column) (.noKeyColumn key_column)
    ensure (folds ≤ 2 ^ 63) .overflow
    return (units p params frame).map (foldAt p q folds)
  else
    ensure (folds ≤ 2 ^ 63) .overflow
    return (units p params frame).map (foldAt p q folds)

/-- What is documented of the libraries: the rounding is to the nearest of the floats. -/
structure Documented : Prop where
  argSort_perm : ∀ values, (q.argSort values).Perm (List.range values.length)
  argSort_sorted : ∀ (values : List V) (i j a b : ℕ) (x y : V), i < j →
    (q.argSort values)[i]? = some a → (q.argSort values)[j]? = some b →
      values[a]? = some x → values[b]? = some y → q.le x y = true
  toInt64_eq : ∀ x : ℚ, 0 ≤ x → x < 2 ^ 63 → q.toInt64 x = ⌊x⌋
  round_mono : Monotone p.round
  round_round : ∀ x, p.round (p.round x) = p.round x
  round_zero : p.round 0 = 0
  hash_nonneg : ∀ seed text, 0 ≤ p.hash seed text
  draw_nonneg : ∀ seed n i, 0 ≤ p.draw seed n i

end Definitions

/-! ## Ranks -/

variable {p : Primitives V D} {q : Sorting V} {params : SplitParams} {folds : ℤ}
  {frame : Frame V D} {a : List ℤ} {n r : ℕ}

theorem wrap64_of_lt {z : ℤ} (h0 : 0 ≤ z) (h : z < 2 ^ 63) : wrap64 z = z := by
  rw [wrap64]
  apply Int.bmod_eq_of_le <;> omega

theorem wrap64_neg {z : ℤ} (h0 : 2 ^ 63 ≤ z) (h : z < 2 ^ 64) : wrap64 z < 0 := by
  have hshift : wrap64 z = z - 2 ^ 64 := by
    have hmod := Int.sub_bmod_right z (2 ^ 64)
    rw [wrap64, ← hmod]
    apply Int.bmod_eq_of_le <;> push_cast <;> omega
  omega

theorem rankFold_eq (hfolds : 2 ≤ folds) (hr : r < n) (h : (r : ℤ) * folds < 2 ^ 63) :
    rankFold folds n r = block n folds.toNat r := by
  have hk : (folds.toNat : ℤ) = folds := Int.toNat_of_nonneg (by omega)
  have hlt := block_lt (k := folds.toNat) hr (by omega)
  have hblock : (block n folds.toNat r : ℤ) = r * folds / n := by
    rw [block, Int.natCast_ediv, Nat.cast_mul, hk]
  rw [rankFold, wrap64_of_lt (by positivity) h, ← hblock]
  omega

theorem rankFold_neg (hfolds : 2 ≤ folds) (hr : r < n) (h0 : 2 ^ 63 ≤ (r : ℤ) * folds)
    (h : (r : ℤ) * folds < 2 ^ 64) : rankFold folds n r < 0 := by
  have hneg := wrap64_neg h0 h
  have hdiv : wrap64 (r * folds) / n < 0 := Int.ediv_neg_of_neg_of_pos hneg (by omega)
  rw [rankFold]
  omega

theorem exists_rankFold_neg (hfolds : 2 ≤ folds) (hsmall : folds < 2 ^ 63)
    (h : 2 ^ 63 ≤ ((n - 1 : ℕ) : ℤ) * folds) : ∃ r < n, rankFold folds n r < 0 := by
  have hex : ∃ r : ℕ, 2 ^ 63 ≤ (r : ℤ) * folds := ⟨n - 1, h⟩
  have hmin : ∀ m < Nat.find hex, ¬ 2 ^ 63 ≤ (m : ℤ) * folds := fun m hm => Nat.find_min hex hm
  have hspec := Nat.find_spec hex
  have hle : Nat.find hex ≤ n - 1 := Nat.find_min' hex h
  generalize Nat.find hex = r at hmin hspec hle
  cases r with
  | zero => simp at hspec
  | succ r =>
    have hprev := hmin r (Nat.lt_succ_self r)
    have hsum : ((r + 1 : ℕ) : ℤ) * folds = r * folds + folds := by push_cast; ring
    exact ⟨r + 1, by omega, rankFold_neg hfolds (by omega) hspec (by omega)⟩

/-! ## What the folds of a table are -/

variable (p q params folds) in
/-- The folds are the numbers below `folds`. Under a grouped split rows with equal keys are in one
fold, whatever other rows stand with them. Under a temporal one a later fold has no earlier row than
an earlier fold, and the folds have as many rows as each other, or one more. -/
structure FoldLaws (frame : Frame V D) (a : List ℤ) : Prop where
  range : ∀ f ∈ a, 0 ≤ f ∧ f < folds
  grouped : method params = "grouped_by_key" → ∀ key, params.key_column = some key →
    ∀ (frame' : Frame V D) (a' : List ℤ), frame'.columns = frame.columns →
      assignFolds p q params folds frame' = .ok a' → ∀ row ∈ frame.rows, ∀ row' ∈ frame.rows,
        p.same (row key) (row' key) = true → ∀ i j : ℕ, frame'.rows[i]? = some row →
          frame'.rows[j]? = some row' → a'[i]? = a'[j]?
  contiguous : method params = "temporal" → ∀ time, params.time_column = some time →
    ∀ (i j : ℕ) f g row row', a[i]? = some f → a[j]? = some g → frame.rows[i]? = some row →
      frame.rows[j]? = some row' → f < g → q.le (row time) (row' time) = true
  sizes : method params = "temporal" → ∀ f g, 0 ≤ f → f < folds → 0 ≤ g → g < folds →
    a.count f ≤ a.count g + 1

variable (p q params folds) in
/-- No product passes the largest integer, and equal keys with different texts have hashes of one
fold. -/
structure FoldsFit (frame : Frame V D) : Prop where
  ranks : method params = "temporal" → ((frame.rows.length - 1 : ℕ) : ℤ) * folds < 2 ^ 63
  units : method params ≠ "temporal" → ∀ u ∈ units p params frame,
    p.round (u * p.round folds) < 2 ^ 63 ∨ 0 ≤ q.toInt64 (p.round (u * p.round folds))
  keys : method params = "grouped_by_key" → ∀ key, params.key_column = some key →
    ∀ row ∈ frame.rows, ∀ row' ∈ frame.rows, p.same (row key) (row' key) = true →
      p.str (row key) ≠ p.str (row' key) →
        foldAt p q folds (p.hash (params.seed.getD 0) (p.str (row key))) =
          foldAt p q folds (p.hash (params.seed.getD 0) (p.str (row' key)))

theorem assignFolds_temporal (hm : method params = "temporal")
    (h : assignFolds p q params folds frame = .ok a) : 2 ≤ folds ∧ folds < 2 ^ 63 ∧
      ∃ time, params.time_column = some time ∧
        a = (List.range frame.rows.length).map fun place => rankFold folds frame.rows.length
          ((q.argSort (frame.rows.map fun row => row time)).idxOf place) := by
  unfold assignFolds at h
  rw [if_pos hm] at h
  obtain ⟨-, h⟩ := ensure_bind_eq_ok.mp h
  obtain ⟨hfolds, h⟩ := ensure_bind_eq_ok.mp h
  obtain ⟨time, htime, h⟩ := require_bind_eq_ok.mp h
  obtain ⟨dtype, -, h⟩ := require_bind_eq_ok.mp h
  obtain ⟨hsmall, h⟩ := ensure_bind_eq_ok.mp h
  cases h
  exact ⟨hfolds, hsmall, time, (Option.filter_eq_some_iff.mp htime).1, rfl⟩

theorem assignFolds_units (hm : method params ≠ "temporal")
    (h : assignFolds p q params folds frame = .ok a) :
    2 ≤ folds ∧ a = (units p params frame).map (foldAt p q folds) := by
  unfold assignFolds at h
  rw [if_neg hm] at h
  obtain ⟨-, h⟩ := ensure_bind_eq_ok.mp h
  obtain ⟨hfolds, h⟩ := ensure_bind_eq_ok.mp h
  split_ifs at h with hg
  · obtain ⟨key, -, h⟩ := require_bind_eq_ok.mp h
    obtain ⟨dtype, -, h⟩ := require_bind_eq_ok.mp h
    obtain ⟨-, h⟩ := ensure_bind_eq_ok.mp h
    cases h
    exact ⟨hfolds, rfl⟩
  · obtain ⟨-, h⟩ := ensure_bind_eq_ok.mp h
    cases h
    exact ⟨hfolds, rfl⟩

theorem units_grouped (hm : method params = "grouped_by_key") {key : String}
    (hkey : params.key_column = some key) : units p params frame =
      frame.rows.map fun row => p.hash (params.seed.getD 0) (p.str (row key)) := by
  rw [units, if_pos hm, hkey]
  rfl

theorem ranks_perm {order : List ℕ} (h : order.Perm (List.range n)) :
    ((List.range n).map order.idxOf).Perm (List.range n) := by
  have hnodup : order.Nodup := h.nodup_iff.mpr List.nodup_range
  have hlength : order.length = n := by rw [h.length_eq, List.length_range]
  have hmap : order.map order.idxOf = List.range n := by
    refine List.ext_getElem (by simp [hlength]) fun i hi _ => ?_
    rw [List.getElem_map, List.getElem_range, hnodup.idxOf_getElem]
  exact (h.symm.map _).trans (List.Perm.of_eq hmap)

theorem temporal_blocks (hfolds : 2 ≤ folds) (hsmall : ((n - 1 : ℕ) : ℤ) * folds < 2 ^ 63)
    {order : List ℕ} (horder : order.Perm (List.range n)) :
    ((List.range n).map fun place => rankFold folds n (order.idxOf place)) =
      ((List.range n).map order.idxOf).map fun r => (block n folds.toNat r : ℤ) := by
  rw [List.map_map]
  apply List.map_congr_left
  intro place hplace
  have hlt : order.idxOf place < n := by
    have hmem := (ranks_perm horder).subset (List.mem_map_of_mem hplace)
    exact List.mem_range.mp hmem
  refine rankFold_eq hfolds hlt (lt_of_le_of_lt ?_ hsmall)
  exact mul_le_mul_of_nonneg_right (by exact_mod_cast Nat.le_sub_one_of_lt hlt) (by omega)

theorem count_blocks {ranks : List ℕ} (hranks : ranks.Perm (List.range n))
    {f : ℤ} (hf : 0 ≤ f) : (ranks.map fun r => (block n folds.toNat r : ℤ)).count f =
      (List.range n).countP fun r => block n folds.toNat r = f.toNat := by
  rw [List.count, List.countP_map, hranks.countP_eq]
  apply List.countP_congr
  intro r _
  simp only [Function.comp_apply, beq_iff_eq, decide_eq_true_eq]
  omega

theorem foldLaws_temporal (hd : Documented p q) (hm : method params = "temporal")
    (ha : assignFolds p q params folds frame = .ok a) : FoldLaws p q params folds frame a ↔
      ((frame.rows.length - 1 : ℕ) : ℤ) * folds < 2 ^ 63 := by
  obtain ⟨hfolds, hint, time, htime, rfl⟩ := assignFolds_temporal hm ha
  have horder := hd.argSort_perm (frame.rows.map fun row => row time)
  have hsorted := hd.argSort_sorted (frame.rows.map fun row => row time)
  rw [List.length_map] at horder
  generalize q.argSort (frame.rows.map fun row => row time) = order at *
  generalize hn : frame.rows.length = n at *
  have hlength : order.length = n := by rw [horder.length_eq, List.length_range]
  have hmixed : ¬ method params = "grouped_by_key" := by
    rw [hm]
    decide
  constructor
  · intro h
    by_contra! hlarge
    obtain ⟨r, hr, hneg⟩ := exists_rankFold_neg hfolds hint hlarge
    have hrank : r < order.length := hlength.symm ▸ hr
    have hat : order[r] < n := List.mem_range.mp (horder.subset (List.getElem_mem hrank))
    have hmem := List.mem_map_of_mem (f := fun place => rankFold folds n (order.idxOf place))
      (List.mem_range.mpr hat)
    have hrange := (h.range _ hmem).1
    rw [(horder.nodup_iff.mpr List.nodup_range).idxOf_getElem] at hrange
    omega
  · intro hsmall
    have hranks := ranks_perm horder
    rw [temporal_blocks hfolds hsmall horder]
    refine ⟨fun f hf => ?_, fun hg => absurd hg hmixed, fun _ column hcolumn => ?_,
      fun _ f g hf0 hf hg0 hg => ?_⟩
    · obtain ⟨r, hr, rfl⟩ := List.mem_map.mp hf
      have hlt := block_lt (k := folds.toNat) (List.mem_range.mp (hranks.subset hr)) (by omega)
      omega
    · obtain rfl : time = column := Option.some.inj (htime.symm.trans hcolumn)
      intro i j f g row row' hi hj hrow hrow' hlt
      have hblock : ∀ (i : ℕ) f, (((List.range n).map order.idxOf).map
          fun r => (block n folds.toNat r : ℤ))[i]? = some f →
            f = block n folds.toNat (order.idxOf i) ∧ order[order.idxOf i]? = some i := by
        intro i f hi
        obtain ⟨hlt, rfl⟩ := List.getElem?_eq_some_iff.mp hi
        rw [List.length_map, List.length_map, List.length_range] at hlt
        refine ⟨by simp, List.getElem?_idxOf (horder.mem_iff.mpr (List.mem_range.mpr hlt))⟩
      obtain ⟨rfl, hati⟩ := hblock i f hi
      obtain ⟨rfl, hatj⟩ := hblock j g hj
      have hbefore := lt_of_block_lt (Int.ofNat_lt.mp hlt)
      refine hsorted _ _ i j _ _ hbefore hati hatj ?_ ?_
      · rw [List.getElem?_map, hrow]
        rfl
      · rw [List.getElem?_map, hrow']
        rfl
    · rw [count_blocks hranks hf0, count_blocks hranks hg0]
      exact count_block_le (by omega) (by omega) (by omega)

theorem Documented.round_nonneg (hd : Documented p q) {x : ℚ} (h : 0 ≤ x) : 0 ≤ p.round x := by
  rw [← hd.round_zero]
  exact hd.round_mono h

theorem units_nonneg (hd : Documented p q) : ∀ u ∈ units p params frame, 0 ≤ u := by
  intro u hu
  unfold units at hu
  split_ifs at hu
  · obtain ⟨row, -, rfl⟩ := List.mem_map.mp hu
    exact hd.hash_nonneg _ _
  · obtain ⟨i, -, rfl⟩ := List.mem_map.mp hu
    exact hd.draw_nonneg _ _ _

theorem toInt64_nonneg (hd : Documented p q) (hfolds : 2 ≤ folds) {u : ℚ} (hu : 0 ≤ u)
    (h : p.round (u * p.round folds) < 2 ^ 63) : 0 ≤ q.toInt64 (p.round (u * p.round folds)) := by
  have hcount : (0 : ℚ) ≤ folds := by exact_mod_cast (by omega : (0 : ℤ) ≤ folds)
  have hnonneg := hd.round_nonneg (mul_nonneg hu (hd.round_nonneg hcount))
  rw [hd.toInt64_eq _ hnonneg h]
  exact Int.floor_nonneg.mpr hnonneg

theorem foldAt_range (hfolds : 2 ≤ folds) (u : ℚ) :
    (0 ≤ foldAt p q folds u ↔ 0 ≤ q.toInt64 (p.round (u * p.round folds))) ∧
      foldAt p q folds u < folds := by
  rw [foldAt]
  omega

theorem grouped_fold (hm : method params = "grouped_by_key") {key : String}
    (hkey : params.key_column = some key) (ha : assignFolds p q params folds frame = .ok a) {i : ℕ}
    {row : String → V} (hrow : frame.rows[i]? = some row) :
    a[i]? = some (foldAt p q folds (p.hash (params.seed.getD 0) (p.str (row key)))) := by
  have ht : method params ≠ "temporal" := by
    rw [hm]
    decide
  obtain ⟨-, rfl⟩ := assignFolds_units ht ha
  rw [units_grouped hm hkey, List.map_map, List.getElem?_map, hrow]
  rfl

theorem foldLaws_iff (hd : Documented p q) (ha : assignFolds p q params folds frame = .ok a) :
    FoldLaws p q params folds frame a ↔ FoldsFit p q params folds frame := by
  by_cases hm : method params = "temporal"
  · have hmixed : ¬ method params = "grouped_by_key" := by
      rw [hm]
      decide
    rw [foldLaws_temporal hd hm ha]
    exact ⟨fun h => ⟨fun _ => h, fun ht => absurd hm ht, fun hg => absurd hg hmixed⟩,
      fun h => h.ranks hm⟩
  obtain ⟨hfolds, hunits⟩ := assignFolds_units hm ha
  constructor
  · intro h
    refine ⟨fun ht => absurd ht hm, fun _ u hu => ?_, fun hg key hkey row hrow row' hrow' hsame _ => ?_⟩
    · have hmem : foldAt p q folds u ∈ a := by
        rw [hunits]
        exact List.mem_map_of_mem hu
      exact Or.inr ((foldAt_range hfolds u).1.mp (h.range _ hmem).1)
    · obtain ⟨i, hi⟩ := List.mem_iff_getElem?.mp hrow
      obtain ⟨j, hj⟩ := List.mem_iff_getElem?.mp hrow'
      have heq := h.grouped hg key hkey frame a rfl ha row hrow row' hrow' hsame i j hi hj
      rw [grouped_fold hg hkey ha hi, grouped_fold hg hkey ha hj] at heq
      exact Option.some.inj heq
  · intro h
    refine ⟨fun f hf => ?_, fun hg key hkey frame' a' _ ha' row hrow row' hrow' hsame i j hi hj => ?_,
      fun ht => absurd ht hm, fun ht => absurd ht hm⟩
    · rw [hunits] at hf
      obtain ⟨u, hu, rfl⟩ := List.mem_map.mp hf
      obtain ⟨hnonneg, hlt⟩ := foldAt_range (p := p) (q := q) hfolds u
      refine ⟨hnonneg.mpr ?_, hlt⟩
      rcases h.units hm u hu with hbelow | hat
      · exact toInt64_nonneg hd hfolds (units_nonneg hd u hu) hbelow
      · exact hat
    · rw [grouped_fold hg hkey ha' hi, grouped_fold hg hkey ha' hj]
      by_cases htext : p.str (row key) = p.str (row' key)
      · rw [htext]
      · rw [h.keys hg key hkey row hrow row' hrow' hsame htext]

end GiPricing.Data
