import Mathlib.Algebra.Order.Floor.Ring
import Mathlib.Data.List.Sort
import Mathlib.Data.Rat.Floor
import Mathlib.Tactic

/-! # Nearest ranks

The nearest-rank quantile of a list: the element that fewer than the given share of the list lie
below, and at least that share at or below. A sorted list holds it at the rank of the share.
-/

namespace GiPricing.Ranks

variable {α : Type*} [LinearOrder α] {l l' : List α} {x y : α} {q r : ℚ}

/-- The element at the rank of a share, from the least one on. -/
def NearestRank (q : ℚ) (l : List α) (x : α) : Prop :=
  x ∈ l ∧ (l.countP (· < x) : ℚ) < q * l.length ∧ q * l.length ≤ l.countP (· ≤ x)

/-- A larger share has a larger element. -/
theorem NearestRank.mono (hqr : q ≤ r) (hx : NearestRank q l x) (hy : NearestRank r l y) : x ≤ y := by
  by_contra! hlt
  have hcount : l.countP (· ≤ y) ≤ l.countP (· < x) := by
    apply List.countP_mono_left
    intro z _ hz
    simpa using lt_of_le_of_lt (by simpa using hz) hlt
  have hle : (l.countP (· ≤ y) : ℚ) ≤ l.countP (· < x) := by exact_mod_cast hcount
  have hlength : q * l.length ≤ r * l.length := mul_le_mul_of_nonneg_right hqr (by positivity)
  linarith [hx.2.1, hy.2.2]

theorem NearestRank.unique (hx : NearestRank q l x) (hy : NearestRank q l y) : x = y :=
  le_antisymm (hx.mono le_rfl hy) (hy.mono le_rfl hx)

theorem NearestRank.perm (h : l.Perm l') (hx : NearestRank q l x) : NearestRank q l' x := by
  obtain ⟨hmem, hbelow, hat⟩ := hx
  refine ⟨h.subset hmem, ?_, ?_⟩
  · rwa [← h.countP_eq, ← h.length_eq]
  · rwa [← h.countP_eq, ← h.length_eq]

theorem NearestRank.le_of_one (hx : NearestRank 1 l x) (hy : y ∈ l) : y ≤ x := by
  have hall : l.length ≤ l.countP (· ≤ x) := by
    have := hx.2.2
    rw [one_mul] at this
    exact_mod_cast this
  have hfull := (List.countP_eq_length (p := fun z => decide (z ≤ x))).mp
    (le_antisymm List.countP_le_length hall)
  simpa using hfull y hy

def rank (q : ℚ) (n : ℕ) : ℕ := (⌈q * n⌉ - 1).toNat

theorem rank_lt {n : ℕ} (hq : 0 < q) (hq' : q ≤ 1) (hn : 0 < n) : rank q n < n := by
  have hpos : 0 < ⌈q * n⌉ := Int.ceil_pos.mpr (by positivity)
  have hle : ⌈q * n⌉ ≤ n := by
    rw [Int.ceil_le]
    have := mul_le_mul_of_nonneg_right hq' (Nat.cast_nonneg (α := ℚ) n)
    simpa using this
  rw [rank]
  omega

theorem rank_add_one {n : ℕ} (hq : 0 < q) (hn : 0 < n) : ((rank q n + 1 : ℕ) : ℤ) = ⌈q * n⌉ := by
  have hpos : 0 < ⌈q * n⌉ := Int.ceil_pos.mpr (by positivity)
  rw [rank]
  omega

theorem countP_lt_getElem (h : l.SortedLE) {i : ℕ} (hi : i < l.length) :
    l.countP (· < l[i]) ≤ i := by
  have hrest : (l.drop i).countP (· < l[i]) = 0 := by
    rw [List.countP_eq_zero]
    intro z hz
    obtain ⟨j, hj, rfl⟩ := List.getElem_of_mem hz
    rw [List.getElem_drop, decide_eq_true_eq, not_lt]
    exact h.getElem_le_getElem_of_le (Nat.le_add_right i j)
  calc l.countP (· < l[i])
      = (l.take i).countP (· < l[i]) + (l.drop i).countP (· < l[i]) := by
        rw [← List.countP_append, List.take_append_drop]
    _ = (l.take i).countP (· < l[i]) := by rw [hrest, add_zero]
    _ ≤ (l.take i).length := List.countP_le_length
    _ ≤ i := List.length_take_le i l

theorem lt_countP_le_getElem (h : l.SortedLE) {i : ℕ} (hi : i < l.length) :
    i < l.countP (· ≤ l[i]) := by
  have hfirst : (l.take (i + 1)).countP (· ≤ l[i]) = i + 1 := by
    rw [List.countP_eq_length.mpr, List.length_take_of_le hi]
    intro z hz
    obtain ⟨j, hj, rfl⟩ := List.getElem_of_mem hz
    rw [List.length_take_of_le hi] at hj
    rw [List.getElem_take, decide_eq_true_eq]
    exact h.getElem_le_getElem_of_le (by omega)
  have hsplit : l.countP (· ≤ l[i]) =
      (l.take (i + 1)).countP (· ≤ l[i]) + (l.drop (i + 1)).countP (· ≤ l[i]) := by
    rw [← List.countP_append, List.take_append_drop]
  omega

theorem nearestRank_getElem (h : l.SortedLE) (hq : 0 < q) (hi : rank q l.length < l.length) :
    NearestRank q l l[rank q l.length] := by
  have hn : 0 < l.length := by omega
  have hceil := rank_add_one hq hn
  refine ⟨List.getElem_mem hi, ?_, ?_⟩
  · have hbelow := countP_lt_getElem h hi
    have hlt : ((l.countP (· < l[rank q l.length]) : ℕ) : ℤ) < ⌈q * l.length⌉ := by omega
    exact_mod_cast Int.lt_ceil.mp hlt
  · have hat := lt_countP_le_getElem h hi
    have hle : ⌈q * l.length⌉ ≤ ((l.countP (· ≤ l[rank q l.length]) : ℕ) : ℤ) := by omega
    exact_mod_cast Int.ceil_le.mp hle

end GiPricing.Ranks
