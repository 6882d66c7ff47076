import Mathlib.Data.List.Basic
import Mathlib.Data.List.Nodup
import Mathlib.Tactic.SplitIfs

/-! # Keyed tables

Tables as lists of rows with a key: a row is found by its key and written back under it.
-/

namespace GiPricing.Transition

variable {α κ : Type*} [DecidableEq κ] {key : α → κ} {l : List α} {a b old x : α} {k : κ}

def write (key : α → κ) (a : α) (l : List α) : List α := l.map fun y => if key y = key a then a else y

theorem keys_write : (write key a l).map key = l.map key := by
  rw [write, List.map_map]
  refine List.map_congr_left fun y _ => ?_
  simp only [Function.comp_apply]
  split_ifs with h
  · exact h.symm
  · rfl

/-- The rows after one is written back. -/
theorem mem_write (hold : old ∈ l) (hkey : key a = key old) :
    x ∈ write key a l ↔ x = a ∨ x ∈ l ∧ key x ≠ key old := by
  simp only [write, List.mem_map, hkey]
  constructor
  · rintro ⟨y, hy, rfl⟩
    split_ifs with h
    · exact Or.inl rfl
    · exact Or.inr ⟨hy, h⟩
  · rintro (rfl | ⟨hx, hne⟩)
    · exact ⟨old, hold, if_pos rfl⟩
    · exact ⟨x, hx, if_neg hne⟩

theorem write_write (hkey : key b = key a) : write key b (write key a l) = write key b l := by
  rw [write, write, List.map_map]
  refine List.map_congr_left fun y _ => ?_
  simp only [Function.comp_apply]
  by_cases h : key y = key a
  · rw [if_pos h, if_pos hkey.symm, if_pos (h.trans hkey.symm)]
  · rw [if_neg h]

theorem write_self (hnodup : (l.map key).Nodup) (ha : a ∈ l) : write key a l = l := by
  have hsame : ∀ y ∈ l, (if key y = key a then a else y) = y := by
    intro y hy
    split_ifs with h
    · exact List.inj_on_of_nodup_map hnodup ha hy h.symm
    · rfl
  exact (List.map_congr_left hsame).trans (List.map_id' l)

/-- A count after one row is written back: the new row counts for the old one. -/
theorem countP_write {q : α → Bool} (hnodup : (l.map key).Nodup) (hold : old ∈ l)
    (hkey : key a = key old) : (write key a l).countP q + (if q old then 1 else 0) =
      l.countP q + if q a then 1 else 0 := by
  induction l with
  | nil => cases hold
  | cons y l ih =>
    obtain ⟨hy, hnodup⟩ := List.nodup_cons.mp hnodup
    have hcons : write key a (y :: l) = (if key y = key a then a else y) :: write key a l := rfl
    rw [hcons]
    rcases List.mem_cons.mp hold with rfl | hold
    · have hsame : write key a l = l := by
        refine (List.map_congr_left fun z hz => ?_).trans (List.map_id' l)
        rw [if_neg fun h => hy (List.mem_map.mpr ⟨z, hz, h.trans hkey⟩)]
      rw [if_pos hkey.symm, hsame, List.countP_cons, List.countP_cons]
      omega
    · have hne : ¬ key y = key a := fun h => hy (List.mem_map.mpr ⟨old, hold, (h.trans hkey).symm⟩)
      have := ih hnodup hold
      rw [if_neg hne, List.countP_cons, List.countP_cons]
      omega

theorem perm_cons_filter (hnodup : (l.map key).Nodup) (ha : a ∈ l) :
    l.Perm (a :: l.filter fun y => key y ≠ key a) := by
  induction l with
  | nil => cases ha
  | cons y l ih =>
    obtain ⟨hy, hnodup⟩ := List.nodup_cons.mp hnodup
    rcases List.mem_cons.mp ha with rfl | ha
    · have hall : (l.filter fun z => key z ≠ key a) = l := by
        refine List.filter_eq_self.mpr fun z hz => decide_eq_true fun h => ?_
        exact hy (List.mem_map.mpr ⟨z, hz, h⟩)
      rw [List.filter_cons_of_neg (by simp), hall]
    · have hne : key y ≠ key a := fun h => hy (List.mem_map.mpr ⟨a, ha, h.symm⟩)
      rw [List.filter_cons_of_pos (by simpa using hne)]
      exact ((ih hnodup ha).cons y).trans (.swap a y _)

theorem find_eq_some (hnodup : (l.map key).Nodup) {p : α → Prop} [DecidablePred p] :
    (l.find? fun y => key y = k ∧ p y) = some a ↔ a ∈ l ∧ key a = k ∧ p a := by
  constructor
  · intro h
    have := List.find?_some h
    exact ⟨List.mem_of_find?_eq_some h, by simpa using this⟩
  · rintro ⟨ha, hk, hp⟩
    obtain ⟨b, hb⟩ : ∃ b, (l.find? fun y => key y = k ∧ p y) = some b :=
      Option.isSome_iff_exists.mp (List.find?_isSome.mpr ⟨a, ha, by simp [hk, hp]⟩)
    have hbk : key b = k := by
      have := List.find?_some hb
      simp only [decide_eq_true_eq] at this
      exact this.1
    rw [hb, List.inj_on_of_nodup_map hnodup ha (List.mem_of_find?_eq_some hb) (hk.trans hbk.symm)]

end GiPricing.Transition
