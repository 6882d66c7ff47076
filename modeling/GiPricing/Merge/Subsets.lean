import Mathlib.Data.Set.Basic
import Mathlib.Tactic

/-! # Subsets of grouped substitutions

Groups of substitutions, each with the nodes it takes away and the nodes it brings. A subset of the
groups is applied to the shared nodes; every subset is closed exactly when each name has a producer
that no subset can lose.
-/

namespace GiPricing.Merge

variable {ν γ η : Type*}

/-- The shared nodes, and the nodes of each group on its two sides. -/
structure Sides (ν γ : Type*) where
  shared : Set ν
  old : γ → Set ν
  new : γ → Set ν

def Sides.present (s : Sides ν γ) (S : Set γ) : Set ν :=
  {n | n ∈ s.shared ∨ (∃ g ∉ S, n ∈ s.old g) ∨ ∃ g ∈ S, n ∈ s.new g}

/-- Some node of a set has the name. -/
def Names (names : ν → List η) (N : Set ν) (x : η) : Prop := ∃ n ∈ N, x ∈ names n

/-- Every consumed name is produced. -/
def Closed (consumes produces : ν → List η) (N : Set ν) : Prop :=
  ∀ x, Names consumes N x → Names produces N x

/-- A name no subset can lose: a shared node has it, or one group has it on both sides. -/
def Sides.Kept (s : Sides ν γ) (names : ν → List η) (x : η) : Prop :=
  Names names s.shared x ∨ ∃ g, Names names (s.old g) x ∧ Names names (s.new g) x

/-- Each consumed name is kept, or produced on the consumer's own side of its group. -/
structure Sides.SelfContained (s : Sides ν γ) (consumes produces : ν → List η) : Prop where
  shared : ∀ x, Names consumes s.shared x → s.Kept produces x
  old : ∀ g x, Names consumes (s.old g) x → s.Kept produces x ∨ Names produces (s.old g) x
  new : ∀ g x, Names consumes (s.new g) x → s.Kept produces x ∨ Names produces (s.new g) x

section Subsets

variable {s : Sides ν γ} {consumes produces names : ν → List η} {S : Set γ} {x : η} {g : γ}

theorem names_present : Names names (s.present S) x ↔ Names names s.shared x ∨
    (∃ g ∉ S, Names names (s.old g) x) ∨ ∃ g ∈ S, Names names (s.new g) x := by
  constructor
  · rintro ⟨n, hn | ⟨g, hg, hn⟩ | ⟨g, hg, hn⟩, hx⟩
    · exact Or.inl ⟨n, hn, hx⟩
    · exact Or.inr (Or.inl ⟨g, hg, n, hn, hx⟩)
    · exact Or.inr (Or.inr ⟨g, hg, n, hn, hx⟩)
  · rintro (⟨n, hn, hx⟩ | ⟨g, hg, n, hn, hx⟩ | ⟨g, hg, n, hn, hx⟩)
    · exact ⟨n, Or.inl hn, hx⟩
    · exact ⟨n, Or.inr (Or.inl ⟨g, hg, hn⟩), hx⟩
    · exact ⟨n, Or.inr (Or.inr ⟨g, hg, hn⟩), hx⟩

theorem Sides.Kept.present (h : s.Kept names x) (S : Set γ) : Names names (s.present S) x := by
  rw [names_present]
  rcases h with h | ⟨g, hold, hnew⟩
  · exact Or.inl h
  · by_cases hg : g ∈ S
    · exact Or.inr (Or.inr ⟨g, hg, hnew⟩)
    · exact Or.inr (Or.inl ⟨g, hg, hold⟩)

theorem kept_of_present (h : Names names (s.present {g | Names names (s.old g) x}) x) :
    s.Kept names x := by
  rcases names_present.mp h with h | ⟨g, hg, h⟩ | ⟨g, hg, h⟩
  · exact Or.inl h
  · exact absurd h hg
  · exact Or.inr ⟨g, hg, h⟩

theorem closed_all_iff :
    (∀ S, Closed consumes produces (s.present S)) ↔ s.SelfContained consumes produces := by
  constructor
  · refine fun h => ⟨fun x hx => ?_, fun g x hx => ?_, fun g x hx => ?_⟩
    · exact kept_of_present (h _ x (names_present.mpr (Or.inl hx)))
    · by_cases hg : Names produces (s.old g) x
      · exact Or.inr hg
      · exact Or.inl (kept_of_present (h _ x (names_present.mpr (Or.inr (Or.inl ⟨g, hg, hx⟩)))))
    · -- The consumer's group is applied as well.
      have hS := h ({g | Names produces (s.old g) x} ∪ {g}) x
        (names_present.mpr (Or.inr (Or.inr ⟨g, Or.inr rfl, hx⟩)))
      rcases names_present.mp hS with h | ⟨g', hg', h⟩ | ⟨g', hg' | rfl, h⟩
      · exact Or.inl (Or.inl h)
      · exact absurd (Or.inl h) hg'
      · exact Or.inl (Or.inr ⟨g', hg', h⟩)
      · exact Or.inr h
  · intro h S x hx
    rcases names_present.mp hx with hx | ⟨g, hg, hx⟩ | ⟨g, hg, hx⟩
    · exact (h.shared x hx).present S
    · rcases h.old g x hx with hkept | hold
      · exact hkept.present S
      · exact names_present.mpr (Or.inr (Or.inl ⟨g, hg, hold⟩))
    · rcases h.new g x hx with hkept | hnew
      · exact hkept.present S
      · exact names_present.mpr (Or.inr (Or.inr ⟨g, hg, hnew⟩))

end Subsets

end GiPricing.Merge
