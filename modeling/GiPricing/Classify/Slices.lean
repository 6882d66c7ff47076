import Mathlib.Algebra.BigOperators.Group.List.Basic
import Mathlib.Data.List.Nodup
import Mathlib.Data.List.Perm.Basic
import Mathlib.Tactic

/-! # Slices of a list

A list sliced by a class function, and classes by thresholds: the rank of a value is the number of
edges it reaches.
-/

namespace GiPricing.Classify

variable {α κ : Type*} [DecidableEq κ]

def slice (f : α → κ) (l : List α) (k : κ) : List α := l.filter fun x => f x = k

variable {f : α → κ} {l : List α} {ks : List κ} {k : κ} {x : α}

/-- The slices of the classes that occur are the list. -/
theorem slices_perm (hks : ks.Nodup) (h : ∀ x ∈ l, f x ∈ ks) : (ks.flatMap (slice f l)).Perm l := by
  induction ks generalizing l with
  | nil =>
    have hnil : l = [] := List.eq_nil_iff_forall_not_mem.mpr fun x hx => List.not_mem_nil (h x hx)
    rw [hnil]
    exact .refl _
  | cons k ks ih =>
    obtain ⟨hk, hks⟩ := List.nodup_cons.mp hks
    have hothers : ∀ k' ∈ ks, slice f l k' = slice f (l.filter fun x => ¬ decide (f x = k)) k' := by
      intro k' hk'
      rw [slice, slice, List.filter_filter]
      refine List.filter_congr fun x _ => ?_
      by_cases hx : f x = k'
      · have hne : f x ≠ k := fun he => hk (he ▸ hx ▸ hk')
        simp [hx, hx ▸ hne]
      · simp [hx]
    rw [List.flatMap_cons, List.flatMap_congr hothers]
    have hrest := ih (l := l.filter fun x => ¬ decide (f x = k)) hks fun x hx => by
      rw [List.mem_filter] at hx
      exact (List.mem_cons.mp (h x hx.1)).resolve_left (by simpa using hx.2)
    refine (hrest.append_left _).trans ?_
    simpa [slice] using List.filter_append_perm (fun x => decide (f x = k)) l

section Rank

variable {R : Type*} [LinearOrder R] {edges : List R} {v : R}

def rank (edges : List R) (v : R) : ℕ := (edges.filter fun e => e ≤ v).length

end Rank

end GiPricing.Classify
