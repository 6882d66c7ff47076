import Mathlib.Algebra.BigOperators.Group.List.Basic
import Mathlib.Algebra.Order.BigOperators.Group.List
import Mathlib.Data.List.Count
import Mathlib.Tactic

/-! # Joins

An inner join of two lists on a key that the rows of the left one may lack, and the sums of a weight
of the left rows: over the rows joined to one row of the right, and over all of them.
-/

namespace GiPricing.Join

variable {ρ γ κ M : Type*} [DecidableEq κ] [AddCommMonoid M]

def inner (left : ρ → Option κ) (right : γ → κ) (l : List ρ) (r : List γ) : List (ρ × γ) :=
  l.flatMap fun a => (r.filter fun c => left a = some (right c)).map fun c => (a, c)

variable {left : ρ → Option κ} {right : γ → κ} {l : List ρ} {r : List γ} {weight : ρ → M} {c : γ}
  {a : ρ}

theorem inner_cons : inner left right (a :: l) r =
    (r.filter fun c => left a = some (right c)).map (fun c => (a, c)) ++ inner left right l r :=
  List.flatMap_cons

theorem mem_inner {p : ρ × γ} :
    p ∈ inner left right l r ↔ p.1 ∈ l ∧ p.2 ∈ r ∧ left p.1 = some (right p.2) := by
  rw [inner, List.mem_flatMap]
  constructor
  · rintro ⟨a, ha, hp⟩
    obtain ⟨c, hc, rfl⟩ := List.mem_map.mp hp
    rw [List.mem_filter, decide_eq_true_iff] at hc
    exact ⟨ha, hc⟩
  · rintro ⟨ha, hc, hkey⟩
    refine ⟨p.1, ha, List.mem_map.mpr ⟨p.2, List.mem_filter.mpr ⟨hc, ?_⟩, rfl⟩⟩
    simpa using hkey

theorem sum_joined_to [DecidableEq γ] (hr : r.Nodup) (hc : c ∈ r) :
    (((inner left right l r).filter fun p => p.2 = c).map fun p => weight p.1).sum =
      ((l.filter fun a => left a = some (right c)).map weight).sum := by
  induction l with
  | nil => rfl
  | cons a l ih =>
    rw [inner_cons, List.filter_append, List.map_append, List.sum_append, ih, List.filter_cons]
    have hcount : ((r.filter fun d => left a = some (right d)).filter fun d => d = c) =
        if left a = some (right c) then [c] else [] := by
      rw [List.filter_eq]
      split_ifs with hkey
      · rw [List.count_eq_one_of_mem (hr.filter _) (List.mem_filter.mpr ⟨hc, by simpa using hkey⟩)]
        rfl
      · rw [List.count_eq_zero.mpr (by simp [List.mem_filter, hkey])]
        rfl
    have hhead : ((((r.filter fun d => left a = some (right d)).map fun d => (a, d)).filter
        fun p => p.2 = c).map fun p => weight p.1).sum =
        if left a = some (right c) then weight a else 0 := by
      rw [List.filter_map, List.map_map, Function.comp_def, Function.comp_def, hcount]
      split_ifs <;> simp
    rw [hhead]
    by_cases hkey : left a = some (right c)
    · rw [if_pos hkey, if_pos (by simpa using hkey), List.map_cons, List.sum_cons]
    · rw [if_neg hkey, if_neg (by simpa using hkey), zero_add]

theorem sum_inner : ((inner left right l r).map fun p => weight p.1).sum =
    (l.map fun a => (r.countP fun c => left a = some (right c)) • weight a).sum := by
  induction l with
  | nil => rfl
  | cons a l ih =>
    rw [inner_cons, List.map_append, List.sum_append, ih, List.map_cons, List.sum_cons, List.map_map,
      List.countP_eq_length_filter]
    congr 1
    simp only [Function.comp_def, List.map_const', List.sum_replicate]

theorem sum_inner_add (honce : ∀ a ∈ l, (r.countP fun c => left a = some (right c)) ≤ 1) :
    ((inner left right l r).map fun p => weight p.1).sum +
      ((l.filter fun a => r.all fun c => left a ≠ some (right c)).map weight).sum =
      (l.map weight).sum := by
  rw [sum_inner]
  induction l with
  | nil => simp
  | cons a l ih =>
    have hrest := ih fun b hb => honce b (List.mem_cons_of_mem _ hb)
    rw [List.map_cons, List.sum_cons, List.map_cons, List.sum_cons, ← hrest, List.filter_cons]
    rcases Nat.le_one_iff_eq_zero_or_eq_one.mp (honce a List.mem_cons_self) with hzero | hone
    · rw [hzero, zero_smul, zero_add, if_pos, List.map_cons, List.sum_cons, add_left_comm]
      simpa [List.countP_eq_zero] using hzero
    · rw [hone, one_smul, if_neg, add_assoc]
      obtain ⟨c, hc, hkey⟩ := List.countP_pos_iff.mp (hone ▸ Nat.one_pos)
      simp only [List.all_eq_true, not_forall]
      exact ⟨c, hc, by simpa using hkey⟩

end GiPricing.Join
