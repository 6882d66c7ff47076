import Mathlib.Data.List.Chain
import Mathlib.Order.Lattice
import Mathlib.Tactic

/-! # Pieces of a range

The pieces between consecutive edges of a range. They are non-empty exactly where the edges go up
strictly, and they divide the range.
-/

namespace GiPricing.Pieces

variable {α : Type*}

def pieces : α → List α → List (α × α)
  | _, [] => []
  | a, b :: edges => (a, b) :: pieces b edges

variable {a b x : α} {edges : List α}

theorem pieces_consecutive : (pieces a edges).IsChain fun p q => p.2 = q.1 := by
  induction edges generalizing a with
  | nil => exact .nil
  | cons b edges ih =>
    cases edges with
    | nil => exact .singleton _
    | cons c edges => exact .cons_cons rfl ih

variable [LinearOrder α]

theorem pieces_nonempty_iff :
    (∀ p ∈ pieces a edges, p.1 < p.2) ↔ (a :: edges).IsChain (· < ·) := by
  induction edges generalizing a with
  | nil => simp [pieces]
  | cons b edges ih => rw [pieces, List.forall_mem_cons, ih, List.isChain_cons_cons]

theorem le_of_mem_pieces (h : (a :: edges).IsChain (· ≤ ·)) {p : α × α} (hp : p ∈ pieces a edges) :
    a ≤ p.1 := by
  induction edges generalizing a with
  | nil => cases hp
  | cons b edges ih =>
    rw [List.isChain_cons_cons] at h
    rcases List.mem_cons.mp hp with rfl | hp
    · exact le_rfl
    · exact h.1.trans (ih h.2 hp)

theorem pieces_apart (h : (a :: edges).IsChain (· ≤ ·)) :
    (pieces a edges).Pairwise fun p q => p.2 ≤ q.1 := by
  induction edges generalizing a with
  | nil => exact .nil
  | cons b edges ih =>
    rw [List.isChain_cons_cons] at h
    exact List.pairwise_cons.mpr ⟨fun q hq => le_of_mem_pieces h.2 hq, ih h.2⟩

theorem exists_piece_iff (h : (a :: b :: edges).IsChain (· ≤ ·)) :
    (∃ p ∈ pieces a (b :: edges), p.1 ≤ x ∧ x < p.2) ↔
      a ≤ x ∧ x < (b :: edges).getLast (List.cons_ne_nil b edges) := by
  induction edges generalizing a b with
  | nil => simp [pieces]
  | cons c edges ih =>
    rw [List.isChain_cons_cons] at h
    rw [pieces, List.exists_mem_cons_iff, ih h.2, List.getLast_cons_cons]
    have hlast : b ≤ (c :: edges).getLast (List.cons_ne_nil c edges) := by
      have hp := List.isChain_iff_pairwise.mp h.2
      exact (List.pairwise_cons.mp hp).1 _ (List.getLast_mem _)
    constructor
    · rintro (⟨hax, hxb⟩ | ⟨hbx, hx⟩)
      · exact ⟨hax, hxb.trans_le hlast⟩
      · exact ⟨h.1.trans hbx, hx⟩
    · rintro ⟨hax, hx⟩
      rcases lt_or_ge x b with hxb | hbx
      · exact .inl ⟨hax, hxb⟩
      · exact .inr ⟨hbx, hx⟩

end GiPricing.Pieces
