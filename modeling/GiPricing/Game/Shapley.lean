import Mathlib.Algebra.BigOperators.Group.Finset.Sigma
import Mathlib.Data.Finset.Powerset
import Mathlib.Data.Nat.Factorial.Basic
import Mathlib.Tactic

/-! # Shapley numerators

The Shapley value of a player, times the factorial of the number of players, is a weighted
sum of the player's marginal contributions. The numerators of all players share out the
value of the grand coalition.
-/

namespace GiPricing.Game

open Finset Nat

variable {ι R : Type*} [DecidableEq ι] [CommRing R]

/-- The number of orders in which exactly the `s` players of a coalition precede a given one. -/
def weight (n s : ℕ) : ℕ := s ! * (n - s - 1)!

/-- `|N|!` times the Shapley value of a player. -/
def numerator (N : Finset ι) (v : Finset ι → R) (i : ι) : R :=
  ∑ S ∈ (N.erase i).powerset, weight #N #S * (v (insert i S) - v S)

variable {N : Finset ι} {v : Finset ι → R} {i : ι}

theorem mul_weight_pred {n s : ℕ} (hs : s ≠ 0) : s * weight n (s - 1) = s ! * (n - s)! := by
  obtain ⟨t, rfl⟩ := Nat.exists_eq_succ_of_ne_zero hs
  rw [weight, Nat.succ_sub_one, Nat.factorial_succ, ← mul_assoc, Nat.sub_sub]

theorem mul_weight {n s : ℕ} (hs : s < n) : (n - s) * weight n s = s ! * (n - s)! := by
  obtain ⟨t, ht⟩ := Nat.exists_eq_succ_of_ne_zero (Nat.sub_ne_zero_of_lt hs)
  rw [weight, ht, Nat.succ_sub_one, Nat.factorial_succ, Nat.mul_left_comm]

theorem sum_insert (f : ℕ → R) :
    ∑ i ∈ N, ∑ S ∈ (N.erase i).powerset, f #S * v (insert i S) =
      ∑ T ∈ N.powerset, #T * (f (#T - 1) * v T) := by
  have hcount : ∀ T ∈ N.powerset, (#T : R) * (f (#T - 1) * v T) =
      ∑ _i ∈ T, f (#T - 1) * v T := fun T _ => by rw [sum_const, nsmul_eq_mul]
  rw [sum_congr rfl hcount, sum_sigma', sum_sigma']
  refine sum_bij' (fun p _ => ⟨insert p.1 p.2, p.1⟩) (fun p _ => ⟨p.2, p.1.erase p.2⟩) ?_ ?_ ?_ ?_ ?_
  · rintro ⟨i, S⟩ h
    simp only [mem_sigma, mem_powerset] at h ⊢
    exact ⟨insert_subset h.1 (h.2.trans (erase_subset i N)), mem_insert_self i S⟩
  · rintro ⟨T, i⟩ h
    simp only [mem_sigma, mem_powerset] at h ⊢
    exact ⟨h.1 h.2, erase_subset_erase i h.1⟩
  · rintro ⟨i, S⟩ h
    simp only [mem_sigma, mem_powerset] at h
    have hi : i ∉ S := fun hi => (mem_erase.mp (h.2 hi)).1 rfl
    simp [erase_insert hi]
  · rintro ⟨T, i⟩ h
    simp only [mem_sigma] at h
    simp [insert_erase h.2]
  · rintro ⟨i, S⟩ h
    simp only [mem_sigma, mem_powerset] at h
    have hi : i ∉ S := fun hi => (mem_erase.mp (h.2 hi)).1 rfl
    simp [card_insert_of_notMem hi]

theorem sum_outside (f : ℕ → R) :
    ∑ i ∈ N, ∑ S ∈ (N.erase i).powerset, f #S * v S =
      ∑ T ∈ N.powerset, (#N - #T : ℕ) * (f #T * v T) := by
  have hcount : ∀ T ∈ N.powerset, ((#N - #T : ℕ) : R) * (f #T * v T) =
      ∑ _i ∈ N \ T, f #T * v T := fun T hT => by
    rw [sum_const, nsmul_eq_mul, card_sdiff_of_subset (mem_powerset.mp hT)]
  rw [sum_congr rfl hcount]
  refine sum_comm' fun i T => ?_
  simp only [mem_powerset, mem_sdiff]
  constructor
  · rintro ⟨hi, hT⟩
    exact ⟨⟨hi, fun h => (mem_erase.mp (hT h)).1 rfl⟩, hT.trans (erase_subset i N)⟩
  · rintro ⟨⟨hi, hn⟩, hT⟩
    exact ⟨hi, subset_erase.mpr ⟨hT, hn⟩⟩

/-- The numerators share out what the grand coalition adds to the empty one. -/
theorem sum_numerator (N : Finset ι) (v : Finset ι → R) :
    ∑ i ∈ N, numerator N v i = (#N)! * (v N - v ∅) := by
  have hsplit : ∑ i ∈ N, numerator N v i =
      ∑ T ∈ N.powerset, ((#T : R) * (weight #N (#T - 1) * v T)) -
        ∑ T ∈ N.powerset, ((#N - #T : ℕ) : R) * (weight #N #T * v T) := by
    rw [← sum_insert fun s => (weight #N s : R), ← sum_outside fun s => (weight #N s : R),
      ← sum_sub_distrib]
    refine sum_congr rfl fun i _ => ?_
    rw [numerator, ← sum_sub_distrib]
    exact sum_congr rfl fun S _ => mul_sub _ _ _
  -- both sums are the whole one without the coalition that has no member, or no player outside
  let g : Finset ι → R := fun T => ((#T)! * (#N - #T)! : ℕ) * v T
  have hin : ∀ T ∈ N.powerset, (#T : R) * (weight #N (#T - 1) * v T) =
      g T - if T = ∅ then g T else 0 := by
    intro T _
    split_ifs with h
    · simp [h]
    · rw [sub_zero, ← mul_assoc, ← Nat.cast_mul,
        mul_weight_pred (card_ne_zero.mpr (nonempty_iff_ne_empty.mpr h))]
  have hout : ∀ T ∈ N.powerset, ((#N - #T : ℕ) : R) * (weight #N #T * v T) =
      g T - if T = N then g T else 0 := by
    intro T hT
    split_ifs with h
    · simp [h]
    · have hlt : #T < #N := card_lt_card ((mem_powerset.mp hT).ssubset_of_ne h)
      rw [sub_zero, ← mul_assoc, ← Nat.cast_mul, mul_weight hlt]
  rw [hsplit, sum_congr rfl hin, sum_congr rfl hout, sum_sub_distrib, sum_sub_distrib,
    sum_ite_eq' N.powerset, sum_ite_eq' N.powerset]
  simp only [if_true, mem_powerset, Subset.rfl, g]
  simp
  ring

end GiPricing.Game
