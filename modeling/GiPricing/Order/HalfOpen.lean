import Mathlib

/-! # Half-open ranges

A range of a linear order from its start up to its end, or without one. Ranges that hold something
share an element exactly where each starts before the other ends.
-/

namespace GiPricing.HalfOpen

/-- A start, and an end that is left out of the range. -/
structure Span (α : Type*) where
  start : α
  stop : Option α
  deriving DecidableEq

variable {α : Type*} [LinearOrder α] {a b : Span α} {x : α}

namespace Span

def members (a : Span α) : Set α := {x | a.start ≤ x ∧ ∀ t ∈ a.stop, x < t}

/-- Each of two ranges starts before the other ends. -/
def Meets (a b : Span α) : Prop := (∀ t ∈ b.stop, a.start < t) ∧ ∀ t ∈ a.stop, b.start < t

instance (a b : Span α) : Decidable (a.Meets b) := inferInstanceAs (Decidable (_ ∧ _))

theorem nonempty_members : a.members.Nonempty ↔ ∀ t ∈ a.stop, a.start < t := by
  constructor
  · rintro ⟨x, hstart, hstop⟩ t ht
    exact hstart.trans_lt (hstop t ht)
  · intro h
    exact ⟨a.start, le_rfl, h⟩

theorem not_disjoint_iff (ha : a.members.Nonempty) (hb : b.members.Nonempty) :
    ¬ Disjoint a.members b.members ↔ a.Meets b := by
  rw [Set.not_disjoint_iff]
  constructor
  · rintro ⟨x, ⟨hxa, hax⟩, hxb, hbx⟩
    exact ⟨fun t ht => hxa.trans_lt (hbx t ht), fun t ht => hxb.trans_lt (hax t ht)⟩
  · rintro ⟨hab, hba⟩
    refine ⟨max a.start b.start, ⟨le_max_left _ _, ?_⟩, le_max_right _ _, ?_⟩
    · exact fun t ht => max_lt (nonempty_members.mp ha t ht) (hba t ht)
    · exact fun t ht => max_lt (hab t ht) (nonempty_members.mp hb t ht)

end Span

theorem findSome?_perm {β γ : Type*} {l l' : List β} {f : β → Option γ} (hperm : l.Perm l')
    (h : l.Pairwise fun a b => ¬ ((f a).isSome = true ∧ (f b).isSome = true)) :
    l.findSome? f = l'.findSome? f := by
  induction hperm with
  | nil => rfl
  | @cons a l l' _ ih =>
    rw [List.findSome?_cons, List.findSome?_cons, ih (List.pairwise_cons.mp h).2]
  | swap a b l =>
    have hne := (List.pairwise_cons.mp h).1 a List.mem_cons_self
    rw [List.findSome?_cons, List.findSome?_cons, List.findSome?_cons, List.findSome?_cons]
    cases ha : f a with
    | none => cases f b <;> rfl
    | some x =>
      cases hb : f b with
      | none => rfl
      | some y => exact absurd ⟨by rw [hb]; rfl, by rw [ha]; rfl⟩ hne
  | trans h₁ _ ih₁ ih₂ =>
    rw [ih₁ h, ih₂ ((h₁.pairwise_iff fun hab hba => hab hba.symm).mp h)]

end GiPricing.HalfOpen
