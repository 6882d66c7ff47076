import Mathlib.Data.List.Nodup
import Mathlib.Logic.Function.Basic
import Mathlib.Tactic

/-! # Differences of partial maps

The difference of two partial maps, as a list of entries: one for each key at which they differ,
with what either map holds there.
-/

namespace GiPricing.Merge

variable {κ ν : Type*}

/-- A key at which two maps differ, and what they hold there. -/
structure Entry (κ ν : Type*) where
  key : κ
  old : Option ν
  new : Option ν

def patched [DecidableEq κ] (f : κ → Option ν) (entries : List (Entry κ ν)) : κ → Option ν :=
  entries.foldl (fun g e => Function.update g e.key e.new) f

/-- One entry for each key at which the maps differ. -/
structure IsDelta (f g : κ → Option ν) (entries : List (Entry κ ν)) : Prop where
  nodup : (entries.map Entry.key).Nodup
  keys : ∀ k, k ∈ entries.map Entry.key ↔ f k ≠ g k
  old : ∀ e ∈ entries, e.old = f e.key
  new : ∀ e ∈ entries, e.new = g e.key

variable {f g : κ → Option ν} {entries : List (Entry κ ν)}

theorem IsDelta.nil_iff (h : IsDelta f g entries) : entries = [] ↔ f = g := by
  constructor
  · rintro rfl
    ext1 k
    by_contra hk
    exact absurd ((h.keys k).mpr hk) List.not_mem_nil
  · rintro rfl
    apply List.eq_nil_iff_forall_not_mem.mpr
    intro e he
    exact (h.keys e.key).mp (List.mem_map_of_mem he) rfl

variable [DecidableEq κ]

theorem patched_of_notMem {k : κ} (h : k ∉ entries.map Entry.key) : patched f entries k = f k := by
  induction entries generalizing f with
  | nil => rfl
  | cons e entries ih =>
    rw [List.map_cons, List.mem_cons, not_or] at h
    exact (ih h.2).trans (Function.update_of_ne h.1 ..)

theorem patched_of_mem {e : Entry κ ν} (hn : (entries.map Entry.key).Nodup) (he : e ∈ entries) :
    patched f entries e.key = e.new := by
  induction entries generalizing f with
  | nil => cases he
  | cons e' entries ih =>
    rw [List.map_cons, List.nodup_cons] at hn
    rcases List.mem_cons.mp he with rfl | he
    · exact (patched_of_notMem hn.1).trans (Function.update_self ..)
    · exact ih hn.2 he

theorem IsDelta.patched_eq (h : IsDelta f g entries) : patched f entries = g := by
  ext1 k
  by_cases hk : k ∈ entries.map Entry.key
  · obtain ⟨e, he, rfl⟩ := List.mem_map.mp hk
    exact (patched_of_mem h.nodup he).trans (h.new e he)
  · exact (patched_of_notMem hk).trans (not_ne_iff.mp fun hne => hk ((h.keys k).mpr hne))

end GiPricing.Merge
