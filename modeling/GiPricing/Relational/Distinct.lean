import Mathlib.Data.List.Dedup
import Mathlib.Data.List.Sections
import Mathlib.Data.Finset.Card
import Mathlib.Data.Finset.Image
import Mathlib.Tactic

/-! # Distinct values

How many values a column has beside nulls, and how many a function of some columns can have.
-/

namespace GiPricing.Relational

variable {α β : Type*} [DecidableEq α] [DecidableEq β] {height : ℕ}

def distinct (cells : Fin height → Option α) : ℕ := ((List.ofFn cells).filterMap id).dedup.length

def nullLevel (cells : Fin height → Option α) : ℕ := if ∃ i, cells i = none then 1 else 0

theorem distinct_eq_card (cells : Fin height → Option α) :
    distinct cells = ((List.ofFn cells).filterMap id).toFinset.card := by
  rw [List.card_toFinset, distinct]

theorem mem_values {cells : Fin height → Option α} {a : α} :
    a ∈ ((List.ofFn cells).filterMap id).toFinset ↔ ∃ i, cells i = some a := by
  simp [List.mem_ofFn]

theorem distinct_le_length {cells : Fin height → Option β} {f : α → β} {l : List α}
    (h : ∀ i b, cells i = some b → ∃ a ∈ l, f a = b) : distinct cells ≤ l.length := by
  rw [distinct_eq_card]
  have hsub : ((List.ofFn cells).filterMap id).toFinset ⊆ l.toFinset.image f := by
    intro b hb
    obtain ⟨i, hi⟩ := mem_values.mp hb
    obtain ⟨a, ha, rfl⟩ := h i b hi
    exact Finset.mem_image_of_mem f (List.mem_toFinset.mpr ha)
  exact ((Finset.card_le_card hsub).trans Finset.card_image_le).trans l.toFinset_card_le

theorem distinct_le {cells : Fin height → Option β} {source : Fin height → Option α} {f : α → β}
    (h : ∀ i b, cells i = some b → ∃ a, source i = some a ∧ f a = b) :
    distinct cells ≤ distinct source := by
  apply distinct_le_length (f := f)
  intro i b hb
  obtain ⟨a, ha, rfl⟩ := h i b hb
  refine ⟨a, List.mem_dedup.mpr (List.mem_filterMap.mpr ⟨some a, ?_, rfl⟩), rfl⟩
  exact List.mem_ofFn.mpr ⟨i, ha⟩

theorem length_dedup_le (cells : Fin height → Option α) :
    (List.ofFn cells).dedup.length ≤ distinct cells + nullLevel cells := by
  have hcard : (List.ofFn cells).dedup.length = (List.ofFn cells).toFinset.card := by
    rw [List.card_toFinset]
  have hsub : (List.ofFn cells).toFinset ⊆
      (((List.ofFn cells).filterMap id).toFinset.image some) ∪
        (if ∃ i, cells i = none then {none} else ∅) := by
    intro o ho
    obtain ⟨i, rfl⟩ := List.mem_ofFn.mp (List.mem_toFinset.mp ho)
    rw [Finset.mem_union]
    cases hi : cells i with
    | none =>
      right
      rw [if_pos ⟨i, hi⟩]
      exact Finset.mem_singleton_self _
    | some a =>
      left
      exact Finset.mem_image_of_mem some (mem_values.mpr ⟨i, hi⟩)
  rw [hcard, distinct_eq_card, nullLevel]
  refine (Finset.card_le_card hsub).trans ((Finset.card_union_le _ _).trans ?_)
  apply Nat.add_le_add Finset.card_image_le
  split_ifs <;> simp

omit [DecidableEq α] in
theorem length_sections : ∀ ls : List (List α), ls.sections.length = (ls.map List.length).prod
  | [] => rfl
  | l :: ls => by
    have ih := length_sections ls
    simp only [List.sections, List.length_flatMap, List.length_map, List.map_const',
      List.sum_replicate, smul_eq_mul, List.map_cons, List.prod_cons, ih]
    exact Nat.mul_comm _ _

theorem distinct_le_prod {sources : List (Fin height → Option α)} {cells : Fin height → Option β}
    {f : List (Option α) → Option β} (h : ∀ i, cells i = f (sources.map fun s => s i)) :
    distinct cells ≤ (sources.map fun s => distinct s + nullLevel s).prod := by
  have hlength : distinct cells ≤ (sources.map fun s => (List.ofFn s).dedup).sections.length := by
    rw [distinct_eq_card]
    have hsub : (((List.ofFn cells).filterMap id).toFinset.image some) ⊆
        (sources.map fun s => (List.ofFn s).dedup).sections.toFinset.image f := by
      intro o ho
      obtain ⟨b, hb, rfl⟩ := Finset.mem_image.mp ho
      obtain ⟨i, hi⟩ := mem_values.mp hb
      rw [← hi, h i]
      apply Finset.mem_image_of_mem
      rw [List.mem_toFinset, List.mem_sections, List.forall₂_map_left_iff,
        List.forall₂_map_right_iff, List.forall₂_same]
      exact fun s _ => List.mem_dedup.mpr (List.mem_ofFn.mpr ⟨i, rfl⟩)
    rw [← Finset.card_image_of_injective _ (Option.some_injective β)]
    exact ((Finset.card_le_card hsub).trans Finset.card_image_le).trans (List.toFinset_card_le _)
  refine hlength.trans ?_
  rw [length_sections, List.map_map]
  apply List.prod_le_prod'
  intro s _
  exact length_dedup_le s

end GiPricing.Relational
