import Mathlib.Data.List.Nodup
import Mathlib.Tactic

/-! # Lists of entries

Looking up a key in a list of entries, whose keys may repeat.
-/

namespace GiPricing.Dataflow

variable {κ ν : Type*} [DecidableEq κ] {l : List (κ × ν)} {k : κ} {v : ν}

theorem lookup_isSome_iff : (l.lookup k).isSome ↔ k ∈ l.map Prod.fst := by
  rw [List.lookup_isSome_iff, List.mem_map]
  simp only [beq_iff_eq, @eq_comm _ k]

theorem lookup_eq_some_of_nodup (hn : (l.map Prod.fst).Nodup) :
    l.lookup k = some v ↔ (k, v) ∈ l := by
  induction l with
  | nil => simp
  | cons e l ih =>
    obtain ⟨k', v'⟩ := e
    obtain ⟨hk, hl⟩ := List.nodup_cons.mp hn
    by_cases h : k = k'
    · subst h
      have hnot : (k, v) ∉ l := fun hm => hk (List.mem_map.mpr ⟨_, hm, rfl⟩)
      simp [hnot, eq_comm]
    · simp [List.lookup_cons, beq_false_of_ne h, h, ih hl]

end GiPricing.Dataflow
