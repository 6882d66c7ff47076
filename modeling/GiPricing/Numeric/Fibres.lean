import Mathlib.Algebra.BigOperators.Group.List.Basic
import Mathlib.Tactic

/-! # Sums over the parts of a list

A list cut into parts by a label has the sum of its parts, and the places of a strictly sorted list
are the counts of what comes before.
-/

namespace GiPricing.Fibres

variable {α ι : Type*} {M : Type*} [AddCommMonoid M] [DecidableEq ι]

theorem sum_single {labels : List ι} (hnodup : labels.Nodup) {i : ι} (hi : i ∈ labels) (x : M) :
    (labels.map fun l => if i = l then x else 0).sum = x := by
  induction labels with
  | nil => cases hi
  | cons l labels ih =>
    obtain ⟨hl, hnodup⟩ := List.nodup_cons.mp hnodup
    rw [List.map_cons, List.sum_cons]
    by_cases heq : i = l
    · have hzero : ∀ y ∈ labels.map (fun l => if i = l then x else 0), y = 0 := by
        intro y hy
        obtain ⟨l', hl', rfl⟩ := List.mem_map.mp hy
        apply if_neg
        rintro rfl
        exact hl (heq ▸ hl')
      rw [if_pos heq, List.sum_eq_zero hzero, add_zero]
    · have hmem : i ∈ labels := (List.mem_cons.mp hi).resolve_left heq
      rw [if_neg heq, zero_add, ih hnodup hmem]

theorem sum_fibres {labels : List ι} (hnodup : labels.Nodup) {label : α → ι} {f : α → M} {l : List α}
    (hl : ∀ a ∈ l, label a ∈ labels) :
    (labels.map fun i => ((l.filter fun a => label a = i).map f).sum).sum = (l.map f).sum := by
  induction l with
  | nil => simp
  | cons a l ih =>
    rw [List.forall_mem_cons] at hl
    have hstep : ∀ i, (((a :: l).filter fun a => label a = i).map f).sum =
        (if label a = i then f a else 0) + ((l.filter fun a => label a = i).map f).sum := by
      intro i
      by_cases heq : label a = i
      · simp [heq]
      · simp [heq]
    rw [List.map_congr_left fun i _ => hstep i, List.sum_map_add, sum_single hnodup hl.1, ih hl.2,
      List.map_cons, List.sum_cons]

theorem idxOf_eq_countP {β : Type*} [LinearOrder β] {key : ι → β} {l : List ι}
    (hl : l.Pairwise fun a b => key a < key b) {a : ι} (ha : a ∈ l) :
    l.idxOf a = l.countP fun b => key b < key a := by
  induction l with
  | nil => cases ha
  | cons b l ih =>
    obtain ⟨hb, hl⟩ := List.pairwise_cons.mp hl
    rcases List.mem_cons.mp ha with rfl | ha
    · have hnone : ∀ c ∈ l, ¬ key c < key a := fun c hc => (hb c hc).not_gt
      rw [List.idxOf_cons_self, eq_comm, List.countP_eq_zero]
      intro c hc
      rcases List.mem_cons.mp hc with rfl | hc
      · simp
      · simpa using hnone c hc
    · have hlt := hb a ha
      have hne : b ≠ a := fun heq => (heq ▸ hlt).false
      rw [List.idxOf_cons_ne _ hne, List.countP_cons_of_pos (by simpa using hlt), ih hl ha]

end GiPricing.Fibres
