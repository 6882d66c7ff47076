import Mathlib.Tactic

/-! # Equal blocks

The numbers below `n` cut into `k` blocks in their order: `r` is in block `r * k / n`. The blocks are
as equal as they can be.
-/

namespace GiPricing.Order

variable {n k r s f : ℕ}

def block (n k r : ℕ) : ℕ := r * k / n

theorem block_lt (hr : r < n) (hk : 0 < k) : block n k r < k := by
  rw [block, Nat.div_lt_iff_lt_mul (by omega), mul_comm k]
  exact Nat.mul_lt_mul_of_pos_right hr hk

theorem block_mono (h : r ≤ s) : block n k r ≤ block n k s :=
  Nat.div_le_div_right (Nat.mul_le_mul_right k h)

theorem lt_of_block_lt (h : block n k r < block n k s) : r < s := by
  by_contra hle
  exact absurd (block_mono (n := n) (k := k) (not_lt.mp hle)) (not_le.mpr h)

def first (n k f : ℕ) : ℕ := (f * n + (k - 1)) / k

theorem first_le_iff (hk : 0 < k) : first n k f ≤ r ↔ f * n ≤ r * k := by
  rw [first, ← Nat.lt_add_one_iff, Nat.div_lt_iff_lt_mul hk, add_one_mul]
  omega

theorem block_eq_iff (hn : 0 < n) (hk : 0 < k) :
    block n k r = f ↔ first n k f ≤ r ∧ r < first n k (f + 1) := by
  have hlow : f ≤ block n k r ↔ first n k f ≤ r := by
    rw [first_le_iff hk, block, Nat.le_div_iff_mul_le hn]
  have hhigh : f + 1 ≤ block n k r ↔ first n k (f + 1) ≤ r := by
    rw [first_le_iff hk, block, Nat.le_div_iff_mul_le hn]
  omega

theorem first_succ (hk : 0 < k) (f : ℕ) :
    first n k f + n / k ≤ first n k (f + 1) ∧ first n k (f + 1) ≤ first n k f + n / k + 1 := by
  have hsum : (f + 1) * n + (k - 1) = f * n + (k - 1) + n := by ring
  rw [first, first, hsum]
  generalize f * n + (k - 1) = start
  have hadd := Nat.add_div (a := start) (b := n) hk
  split_ifs at hadd <;> omega

theorem first_le (hk : 0 < k) (hf : f ≤ k) : first n k f ≤ n := by
  rw [first_le_iff hk, mul_comm n]
  exact Nat.mul_le_mul_right n hf

theorem count_block (hn : 0 < n) (hk : 0 < k) (hf : f < k) :
    (List.range n).countP (fun r => block n k r = f) = first n k (f + 1) - first n k f := by
  have hfilter : (Finset.range n).filter (fun r => block n k r = f) =
      Finset.Ico (first n k f) (first n k (f + 1)) := by
    ext r
    have hle := first_le (n := n) hk (show f + 1 ≤ k by omega)
    simp only [Finset.mem_filter, Finset.mem_range, Finset.mem_Ico, block_eq_iff hn hk]
    omega
  rw [← Nat.card_Ico, ← hfilter, List.countP_eq_length_filter]
  rfl

theorem count_block_le (hk : 0 < k) {g : ℕ} (hf : f < k) (hg : g < k) :
    (List.range n).countP (fun r => block n k r = f) ≤
      (List.range n).countP (fun r => block n k r = g) + 1 := by
  rcases Nat.eq_zero_or_pos n with rfl | hn
  · simp
  rw [count_block hn hk hf, count_block hn hk hg]
  have h1 := first_succ (n := n) hk f
  have h2 := first_succ (n := n) hk g
  omega

end GiPricing.Order
