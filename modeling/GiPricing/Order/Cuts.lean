import Mathlib.Data.List.Pairwise
import Mathlib.Order.Lattice
import Mathlib.Tactic

/-! # Cut points

Increasing cut points divide a range of a linear order into bands. A band has the one or the other
of its ends, and the outermost bands have the ends of the range. The band of a value is found by
counting the cut points that it has passed.
-/

namespace GiPricing.Cuts

inductive Closed
  | left
  | right
  deriving DecidableEq, Repr

variable {α : Type*} [LinearOrder α]

def Closed.passes : Closed → α → α → Prop
  | .left, cut, x => cut ≤ x
  | .right, cut, x => cut < x

instance (closed : Closed) (x : α) : DecidablePred fun cut => closed.passes cut x :=
  fun cut => match closed with
    | .left => inferInstanceAs (Decidable (cut ≤ x))
    | .right => inferInstanceAs (Decidable (cut < x))

def passed (closed : Closed) (cuts : List α) (x : α) : ℕ :=
  cuts.countP fun cut => closed.passes cut x

/-- The values between two cut points. The first band and the last one have both of their ends. -/
def Closed.Between : Closed → Prop → Prop → α → α → α → Prop
  | .left, _, isLast, low, high, x => low ≤ x ∧ (x < high ∨ isLast ∧ x = high)
  | .right, isFirst, _, low, high, x => (low < x ∨ isFirst ∧ x = low) ∧ x ≤ high

def band (closed : Closed) (edges : List α) (i : ℕ) : Set α :=
  {x | ∃ low ∈ edges[i]?, ∃ high ∈ edges[i + 1]?,
    closed.Between (i = 0) (i + 2 = edges.length) low high x}

variable {closed : Closed} {cuts : List α} {a b c x : α} {i : ℕ}

theorem passes_mono (h : a ≤ b) (hb : closed.passes b x) : closed.passes a x := by
  cases closed with
  | left => exact h.trans hb
  | right => exact h.trans_lt hb

theorem passed_le : passed closed cuts x ≤ cuts.length := List.countP_le_length

/-- A value has passed the first cut points, up to the count, and no others. -/
theorem passes_iff (h : cuts.Pairwise (· < ·)) (hc : cuts[i]? = some c) :
    closed.passes c x ↔ i < passed closed cuts x := by
  induction cuts generalizing i with
  | nil => simp at hc
  | cons d cuts ih =>
    obtain ⟨hd, hrest⟩ := List.pairwise_cons.mp h
    by_cases hpass : closed.passes d x
    · have hcount : passed closed (d :: cuts) x = passed closed cuts x + 1 :=
        List.countP_cons_of_pos (by simpa using hpass)
      rw [hcount]
      cases i with
      | zero =>
        obtain rfl : d = c := by simpa using hc
        simp [hpass]
      | succ j =>
        rw [List.getElem?_cons_succ] at hc
        rw [ih hrest hc]
        omega
    · have hnone : ∀ e ∈ d :: cuts, ¬ closed.passes e x := by
        intro e he hpe
        rcases List.mem_cons.mp he with rfl | he
        · exact hpass hpe
        · exact hpass (passes_mono (hd e he).le hpe)
      have hcount : passed closed (d :: cuts) x = 0 :=
        List.countP_eq_zero.mpr (by simpa using hnone)
      rw [hcount]
      constructor
      · exact fun hp => absurd hp (hnone c (List.mem_of_getElem? hc))
      · exact fun hlt => absurd hlt (Nat.not_lt_zero i)

theorem between_first {isLast : Prop} (ha : a ≤ x) (hlast : ¬ isLast) :
    closed.Between True isLast a c x ↔ ¬ closed.passes c x := by
  cases closed with
  | left => simp [Closed.Between, Closed.passes, ha, hlast]
  | right =>
    have : a < x ∨ x = a := ha.lt_or_eq.imp_right Eq.symm
    simp [Closed.Between, Closed.passes, this]

theorem between_last {isFirst : Prop} (hb : x ≤ b) (hfirst : ¬ isFirst) :
    closed.Between isFirst True c b x ↔ closed.passes c x := by
  cases closed with
  | left =>
    have : x < b ∨ x = b := hb.lt_or_eq
    simp [Closed.Between, Closed.passes, this]
  | right => simp [Closed.Between, Closed.passes, hb, hfirst]

theorem between_only (ha : a ≤ x) (hb : x ≤ b) : closed.Between True True a b x := by
  cases closed with
  | left => exact ⟨ha, hb.lt_or_eq.imp_right fun h => ⟨trivial, h⟩⟩
  | right => exact ⟨ha.lt_or_eq.imp_right fun h => ⟨trivial, h.symm⟩, hb⟩

theorem between_inner {isFirst isLast : Prop} (hfirst : ¬ isFirst) (hlast : ¬ isLast) :
    closed.Between isFirst isLast a b x ↔ closed.passes a x ∧ ¬ closed.passes b x := by
  cases closed <;> simp [Closed.Between, Closed.passes, hfirst, hlast]

/-- A value of the range is in one band: the one after the cut points that it has passed. -/
theorem mem_band_iff (h : cuts.Pairwise (· < ·)) (ha : a ≤ x) (hb : x ≤ b) :
    x ∈ band closed (a :: (cuts ++ [b])) i ↔ i = passed closed cuts x := by
  have hle : passed closed cuts x ≤ cuts.length := passed_le
  have hmem : x ∈ band closed (a :: (cuts ++ [b])) i ↔
      ∃ low, (a :: (cuts ++ [b]))[i]? = some low ∧ ∃ high, (cuts ++ [b])[i]? = some high ∧
        closed.Between (i = 0) (i = cuts.length) low high x := by
    simp [band]
  rw [hmem]
  cases i with
  | zero =>
    cases cuts with
    | nil => simp [passed, between_only ha hb]
    | cons c cuts =>
      have hpass : closed.passes c x ↔ 0 < passed closed (c :: cuts) x := passes_iff h rfl
      simp only [List.getElem?_cons_zero, Option.some.injEq, exists_eq_left', List.cons_append,
        List.length_cons, between_first ha (Nat.succ_ne_zero _).symm, hpass]
      omega
  | succ j =>
    rw [List.getElem?_cons_succ]
    have hfirst : ¬ (j + 1 = 0) := Nat.succ_ne_zero j
    by_cases hj : j < cuts.length
    · have hlow : (cuts ++ [b])[j]? = some cuts[j] := by
        rw [List.getElem?_append_left hj, List.getElem?_eq_getElem hj]
      have hpass : closed.passes cuts[j] x ↔ j < passed closed cuts x :=
        passes_iff h (List.getElem?_eq_getElem hj)
      rw [hlow]
      by_cases hlast : j + 1 = cuts.length
      · have hhigh : (cuts ++ [b])[j + 1]? = some b := by
          rw [List.getElem?_append_right hlast.ge, hlast]
          simp
        have htrue : (j + 1 = cuts.length) = True := eq_true hlast
        simp only [hhigh, Option.some.injEq, exists_eq_left', htrue, between_last hb hfirst, hpass]
        omega
      · have hj' : j + 1 < cuts.length := by omega
        have hhigh : (cuts ++ [b])[j + 1]? = some cuts[j + 1] := by
          rw [List.getElem?_append_left hj', List.getElem?_eq_getElem hj']
        have hpass' : closed.passes cuts[j + 1] x ↔ j + 1 < passed closed cuts x :=
          passes_iff h (List.getElem?_eq_getElem hj')
        simp only [hhigh, Option.some.injEq, exists_eq_left', between_inner hfirst hlast, hpass,
          hpass']
        omega
    · have hhigh : (cuts ++ [b])[j + 1]? = none := by
        rw [List.getElem?_eq_none_iff, List.length_append, List.length_singleton]
        omega
      simp only [hhigh, reduceCtorEq, false_and, exists_false, and_false, false_iff]
      omega

end GiPricing.Cuts
