import GiPricing.Order.Blocks
import Mathlib.Data.List.Sort
import Mathlib.Tactic

/-! # Rankings

The numbers below `n` in the order of a key, and the place of each. A key that turns every comparison
round turns the places round, and with them the equal blocks that the places are cut into: the blocks
come in reverse where their number divides `n` or is not less.
-/

namespace GiPricing.Order

variable {α β : Type*} [LinearOrder α] [LinearOrder β] {key : ℕ → α} {key' : ℕ → β} {n k i r s b : ℕ}

/-! ## Places -/

/-- The numbers below `n` in the order of a key, equal keys in their own order. -/
def argsort (key : ℕ → α) (n : ℕ) : List ℕ :=
  (List.range n).insertionSort fun i j => key i ≤ key j

theorem argsort_perm (key : ℕ → α) (n : ℕ) : (argsort key n).Perm (List.range n) :=
  List.perm_insertionSort _ _

theorem pairwise_argsort (key : ℕ → α) (n : ℕ) : (argsort key n).Pairwise fun i j => key i ≤ key j := by
  have htotal : Std.Total fun i j : ℕ => key i ≤ key j := ⟨fun i j => le_total (key i) (key j)⟩
  have htrans : IsTrans ℕ fun i j => key i ≤ key j := ⟨fun _ _ _ hij hjk => hij.trans hjk⟩
  exact List.pairwise_insertionSort _ _

@[simp] theorem length_argsort : (argsort key n).length = n := by
  rw [(argsort_perm key n).length_eq, List.length_range]

@[simp] theorem mem_argsort : i ∈ argsort key n ↔ i < n := by
  rw [(argsort_perm key n).mem_iff, List.mem_range]

theorem nodup_argsort : (argsort key n).Nodup := (argsort_perm key n).nodup_iff.mpr List.nodup_range

theorem argsort_congr (h : ∀ i < n, ∀ j < n, key i ≤ key j ↔ key' i ≤ key' j) :
    argsort key n = argsort key' n := by
  unfold argsort
  rw [← List.map_id ((List.range n).insertionSort fun i j => key i ≤ key j),
    List.map_insertionSort (fun i j => key i ≤ key j) (fun i j => key' i ≤ key' j) id, List.map_id]
  intro i hi j hj
  exact h i (List.mem_range.mp hi) j (List.mem_range.mp hj)

def place (key : ℕ → α) (n i : ℕ) : ℕ := (argsort key n).idxOf i

theorem place_lt (hi : i < n) : place key n i < n := by
  have hmem : i ∈ argsort key n := mem_argsort.mpr hi
  have h := List.idxOf_lt_length_of_mem hmem
  rwa [length_argsort] at h

theorem idxOf_reverse {l : List ℕ} (hl : l.Nodup) (hi : i ∈ l) :
    l.reverse.idxOf i = l.length - 1 - l.idxOf i := by
  have hlt := List.idxOf_lt_length_of_mem hi
  have hplace : l.length - 1 - l.idxOf i < l.reverse.length := by
    rw [List.length_reverse]
    omega
  have hget : l.reverse[l.length - 1 - l.idxOf i] = i := by
    rw [List.getElem_reverse]
    have hback : l.length - 1 - (l.length - 1 - l.idxOf i) = l.idxOf i := by omega
    simp only [hback]
    exact List.getElem_idxOf hlt
  have hidx := (List.nodup_reverse.mpr hl).idxOf_getElem _ hplace
  rwa [hget] at hidx

/-- One key compares the numbers below `n` the other way round than another. -/
def Turned (key : ℕ → α) (key' : ℕ → β) (n : ℕ) : Prop :=
  ∀ i < n, ∀ j < n, key' i ≤ key' j ↔ key j ≤ key i

theorem argsort_turned (hkey : ∀ i < n, ∀ j < n, key i = key j → i = j)
    (h : Turned key key' n) : argsort key' n = (argsort key n).reverse := by
  refine List.Perm.eq_of_pairwise (fun i j hi hj hij hji => ?_) (pairwise_argsort key' n) ?_ ?_
  · rw [List.mem_reverse, mem_argsort] at hj
    have hi : i < n := mem_argsort.mp hi
    apply hkey i hi j hj
    exact le_antisymm ((h j hj i hi).mp hji) ((h i hi j hj).mp hij)
  · rw [List.pairwise_reverse]
    apply (pairwise_argsort key n).imp_of_mem
    intro i j hi hj hij
    exact (h j (mem_argsort.mp hj) i (mem_argsort.mp hi)).mpr hij
  · exact ((argsort_perm key' n).trans (argsort_perm key n).symm).trans
      (List.reverse_perm _).symm

theorem place_turned (hkey : ∀ i < n, ∀ j < n, key i = key j → i = j)
    (h : Turned key key' n) (hi : i < n) : place key' n i = n - 1 - place key n i := by
  unfold place
  rw [argsort_turned hkey h, idxOf_reverse nodup_argsort (mem_argsort.mpr hi), length_argsort]

/-! ## Blocks across -/

/-- The blocks that the numbers below `n` are in. -/
def blocks (n k : ℕ) : List ℕ := (List.range k).filter fun b => ∃ r < n, block n k r = b

theorem mem_blocks (hk : 0 < k) : b ∈ blocks n k ↔ ∃ r < n, block n k r = b := by
  simp only [blocks, List.mem_filter, List.mem_range, decide_eq_true_eq, and_iff_right_iff_imp]
  rintro ⟨r, hr, rfl⟩
  exact block_lt hr hk

theorem blocks_increase : (blocks n k).Pairwise (· < ·) :=
  (List.pairwise_lt_range).filter _

def across (n k b : ℕ) : ℕ := block n k (n - 1 - first n k b)

variable (h : n ≤ k ∨ k ∣ n)

theorem block_injective (hnk : n ≤ k) (hn : 0 < n) (heq : block n k r = block n k s) : r = s := by
  have hstep : ∀ {r s : ℕ}, r < s → block n k r < block n k s := by
    intro r s hrs
    apply Nat.lt_of_lt_of_le (Nat.lt_succ_self _)
    rw [block, block, Nat.succ_eq_add_one, ← Nat.add_div_right _ hn]
    apply Nat.div_le_div_right
    calc r * k + n ≤ r * k + k := by omega
      _ = (r + 1) * k := by ring
      _ ≤ s * k := Nat.mul_le_mul_right k hrs
  rcases lt_trichotomy r s with hlt | rfl | hlt
  · exact absurd heq (hstep hlt).ne
  · rfl
  · exact absurd heq (hstep hlt).ne'

theorem block_of_dvd {m : ℕ} (hk : 0 < k) : block (k * m) k r = r / m := by
  rw [block, mul_comm k m]
  exact Nat.mul_div_mul_right r m hk

include h in
theorem block_across_iff (hk : 0 < k) (hr : r < n) (hs : s < n) :
    block n k (n - 1 - r) = block n k (n - 1 - s) ↔ block n k r = block n k s := by
  rcases h with hnk | ⟨m, rfl⟩
  · have hn : 0 < n := by omega
    constructor
    · intro heq
      have := block_injective hnk hn heq
      have hrs : r = s := by omega
      rw [hrs]
    · intro heq
      rw [block_injective hnk hn heq]
  · have hturn : ∀ {r : ℕ}, r < k * m → block (k * m) k (k * m - 1 - r) = k - (r / m + 1) := by
      intro r hr
      rw [block_of_dvd hk, Nat.sub_sub, add_comm 1 r, mul_comm k m]
      exact Nat.mul_sub_div r m k (by rwa [mul_comm m k])
    have hlt : ∀ {r : ℕ}, r < k * m → r / m < k := by
      intro r hr
      rw [← block_of_dvd hk]
      exact block_lt hr hk
    have hlr := hlt hr
    have hls := hlt hs
    rw [hturn hr, hturn hs, block_of_dvd hk, block_of_dvd hk]
    omega

include h in
theorem across_block (hk : 0 < k) (hr : r < n) :
    across n k (block n k r) = block n k (n - 1 - r) := by
  have hn : 0 < n := by omega
  obtain ⟨hlow, hhigh⟩ := (block_eq_iff hn hk).mp (rfl : block n k r = block n k r)
  apply (block_across_iff h hk (lt_of_le_of_lt hlow hr) hr).mpr
  exact (block_eq_iff hn hk).mpr ⟨le_rfl, lt_of_le_of_lt hlow hhigh⟩

include h in
theorem block_eq_across_iff (hk : 0 < k) (hr : r < n) (hb : b ∈ blocks n k) :
    block n k (n - 1 - r) = b ↔ block n k r = across n k b := by
  obtain ⟨s, hs, rfl⟩ := (mem_blocks hk).mp hb
  rw [across_block h hk hs, ← block_across_iff h hk (by omega : n - 1 - r < n) hs]
  have hback : n - 1 - (n - 1 - r) = r := by omega
  rw [hback]

include h in
/-- The blocks across are the blocks in reverse. -/
theorem map_across (hk : 0 < k) : (blocks n k).map (across n k) = (blocks n k).reverse := by
  have hinj : ∀ b ∈ blocks n k, ∀ b' ∈ blocks n k, across n k b = across n k b' → b = b' := by
    intro b hb b' hb' heq
    obtain ⟨r, hr, rfl⟩ := (mem_blocks hk).mp hb
    obtain ⟨s, hs, rfl⟩ := (mem_blocks hk).mp hb'
    rw [across_block h hk hr, across_block h hk hs] at heq
    exact (block_across_iff h hk hr hs).mp heq
  have hnodup : (blocks n k).Nodup := blocks_increase.imp fun hlt => hlt.ne
  have hperm : ((blocks n k).map (across n k)).Perm (blocks n k).reverse := by
    apply (List.perm_ext_iff_of_nodup (hnodup.map_on hinj) (List.nodup_reverse.mpr hnodup)).mpr
    intro b
    rw [List.mem_map, List.mem_reverse]
    constructor
    · rintro ⟨b, hb, rfl⟩
      obtain ⟨r, hr, rfl⟩ := (mem_blocks hk).mp hb
      rw [across_block h hk hr]
      exact (mem_blocks hk).mpr ⟨n - 1 - r, by omega, rfl⟩
    · intro hb
      obtain ⟨r, hr, rfl⟩ := (mem_blocks hk).mp hb
      have hturn : n - 1 - r < n := by omega
      refine ⟨block n k (n - 1 - r), (mem_blocks hk).mpr ⟨_, hturn, rfl⟩, ?_⟩
      rw [across_block h hk hturn]
      congr 1
      omega
  have hdown : ((blocks n k).map (across n k)).Pairwise fun b b' => b' ≤ b := by
    rw [List.pairwise_map]
    apply blocks_increase.imp_of_mem
    intro b b' hb hb' hlt
    obtain ⟨r, hr, rfl⟩ := (mem_blocks hk).mp hb
    obtain ⟨s, hs, rfl⟩ := (mem_blocks hk).mp hb'
    rw [across_block h hk hr, across_block h hk hs]
    have hrs := lt_of_block_lt hlt
    exact block_mono (by omega)
  have hdown' : (blocks n k).reverse.Pairwise fun b b' => b' ≤ b := by
    rw [List.pairwise_reverse]
    exact blocks_increase.imp fun hlt => hlt.le
  exact List.Perm.eq_of_pairwise (fun _ _ _ _ hle hle' => le_antisymm hle' hle) hdown hdown' hperm

end GiPricing.Order
