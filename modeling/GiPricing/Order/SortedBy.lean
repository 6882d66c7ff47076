import Mathlib.Data.List.Sort
import Mathlib.Tactic

/-! # Sorting by a key

A list is sorted by a key, its equal keys in the order of the list. Where a key belongs to one element
only, the order of the list does not matter.
-/

namespace GiPricing

variable {α κ : Type*} [LinearOrder κ] (key : α → κ)

def sortedBy (l : List α) : List α := l.mergeSort fun a b => decide (key a ≤ key b)

theorem sortedBy_perm (l : List α) : (sortedBy key l).Perm l := List.mergeSort_perm _ _

@[simp] theorem mem_sortedBy {a : α} {l : List α} : a ∈ sortedBy key l ↔ a ∈ l :=
  (sortedBy_perm key l).mem_iff

theorem pairwise_sortedBy (l : List α) : (sortedBy key l).Pairwise fun a b => key a ≤ key b := by
  have htrans : ∀ a b c : α, decide (key a ≤ key b) = true → decide (key b ≤ key c) = true →
      decide (key a ≤ key c) = true := by
    intro a b c hab hbc
    rw [decide_eq_true_eq] at *
    exact hab.trans hbc
  have htotal : ∀ a b : α, (decide (key a ≤ key b) || decide (key b ≤ key a)) = true := by
    intro a b
    simpa using le_total (key a) (key b)
  exact (List.pairwise_mergeSort htrans htotal l).imp fun hab => by simpa using hab

variable {key}

theorem sortedBy_congr {l l' : List α} (h : l.Perm l')
    (hkey : ∀ a ∈ l, ∀ b ∈ l, key a = key b → a = b) : sortedBy key l = sortedBy key l' := by
  refine List.Perm.eq_of_pairwise (fun a b ha hb hab hba => ?_) (pairwise_sortedBy key l)
    (pairwise_sortedBy key l') (((sortedBy_perm key l).trans h).trans (sortedBy_perm key l').symm)
  rw [mem_sortedBy] at ha hb
  exact hkey a ha b (h.mem_iff.mpr hb) (le_antisymm hab hba)

end GiPricing
