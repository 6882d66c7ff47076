import Mathlib.Tactic

/-! # Slices and chunks

A list is cut into chunks of one size, and an interval of it is read from the chunks it lies in.
-/

namespace GiPricing.Paging

variable {α β : Type*} (l : List α)

/-- `l[start:stop]`. -/
def slice (start stop : ℕ) : List α := (l.take stop).drop start

theorem slice_eq_take (start stop : ℕ) : slice l start stop = (l.drop start).take (stop - start) :=
  List.drop_take

@[simp] theorem length_slice (start stop : ℕ) :
    (slice l start stop).length = min stop l.length - start := by simp [slice]

theorem slice_map (f : α → β) (start stop : ℕ) :
    slice (l.map f) start stop = (slice l start stop).map f := by
  rw [slice, slice, List.map_drop, List.map_take]

@[simp] theorem slice_all : slice l 0 l.length = l := by simp [slice]

theorem slice_append {a b c : ℕ} (hab : a ≤ b) (hbc : b ≤ c) :
    slice l a b ++ slice l b c = slice l a c := by
  have hlen : c - a = (b - a) + (c - b) := by omega
  have hdrop : l.drop b = (l.drop a).drop (b - a) := by rw [List.drop_drop, Nat.add_sub_cancel' hab]
  rw [slice_eq_take, slice_eq_take, slice_eq_take, hlen, List.take_add, hdrop]

theorem slice_slice (a b i j : ℕ) : slice (slice l a b) i j = slice l (a + i) (min (a + j) b) := by
  have htake : ((l.take b).drop a).take j = ((l.take b).take (a + j)).drop a := List.take_drop
  rw [slice, slice, htake, List.drop_drop, List.take_take, slice]

/-! ## Chunks -/

/-- How many chunks of a size reach a length: `len(range(0, n, size))`. -/
def count (n size : ℕ) : ℕ := (n + size - 1) / size

def chunk (size index : ℕ) : List α := slice l (index * size) (index * size + size)

/-- `l[i:i + size] for i in range(0, len(l), size)`. -/
def chunks (size : ℕ) : List (List α) := (List.range (count l.length size)).map (chunk l size)

def piece (size start stop index : ℕ) : List α :=
  let lines := chunk l size index
  slice lines (start - index * size) (min (stop - index * size) lines.length)

variable {l} {size start stop : ℕ}

theorem lt_count_iff (hsize : 1 ≤ size) {n index : ℕ} : index < count n size ↔ index * size < n := by
  rw [count, ← Nat.succ_le_iff, Nat.le_div_iff_mul_le hsize, Nat.succ_mul]
  omega

theorem piece_eq (hstop : stop ≤ l.length) {index : ℕ} (h : index * size < stop) :
    piece l size start stop index =
      slice l (max start (index * size)) (min stop (index * size + size)) := by
  have hlow : index * size + (start - index * size) = max start (index * size) := by omega
  have hhigh : min (index * size + min (stop - index * size)
      (min (index * size + size) l.length - index * size)) (index * size + size) =
      min stop (index * size + size) := by omega
  rw [piece, chunk, length_slice, slice_slice, hlow, hhigh]

theorem flatMap_piece_prefix (hsize : 1 ≤ size) (hstop : stop ≤ l.length) (k : ℕ)
    (h : (start / size + k) * size < stop) :
    (List.range' (start / size) (k + 1)).flatMap (piece l size start stop) =
      slice l start (min stop ((start / size + k) * size + size)) := by
  have hstart := Nat.div_mul_le_self start size
  have hnext := Nat.lt_div_mul_add hsize (a := start)
  induction k with
  | zero =>
    rw [Nat.add_zero] at h
    have hmax : max start (start / size * size) = start := max_eq_left hstart
    simp [piece_eq hstop h, hmax]
  | succ k ih =>
    have hmul : (start / size + (k + 1)) * size = (start / size + k) * size + size := by ring
    have hle : start / size * size ≤ (start / size + k) * size := by
      gcongr
      exact Nat.le_add_right _ k
    have hmin : min stop ((start / size + k) * size + size) = (start / size + (k + 1)) * size := by
      omega
    have hmax : max start ((start / size + (k + 1)) * size) = (start / size + (k + 1)) * size := by
      omega
    rw [List.range'_concat, List.flatMap_append, ih (by omega), hmin, Nat.one_mul, List.flatMap_cons,
      List.flatMap_nil, List.append_nil, piece_eq hstop h, hmax, slice_append _ (by omega) (by omega)]

theorem flatMap_piece (hsize : 1 ≤ size) (hlt : start < stop) (hstop : stop ≤ l.length) :
    (List.range' (start / size) (count stop size - start / size)).flatMap
      (piece l size start stop) = slice l start stop := by
  have hfirst : start / size < count stop size :=
    (lt_count_iff hsize).mpr ((Nat.div_mul_le_self start size).trans_lt hlt)
  obtain ⟨k, hk⟩ : ∃ k, count stop size - start / size = k + 1 :=
    ⟨count stop size - start / size - 1, by omega⟩
  have hlast : (start / size + k) * size < stop := (lt_count_iff hsize).mp (by omega)
  have hend : ¬ (start / size + k + 1) * size < stop := fun h => by
    have := (lt_count_iff hsize).mpr h
    omega
  have hmul : (start / size + k + 1) * size = (start / size + k) * size + size := by ring
  rw [hk, flatMap_piece_prefix hsize hstop k hlast, min_eq_left (by omega)]

end GiPricing.Paging
