import Mathlib.Algebra.Order.Field.Basic
import Mathlib.Data.List.Infix
import Mathlib.Tactic

/-! # Steps against a direction

How far consecutive numbers of a list go against a direction, and what small steps add up to.
-/

namespace GiPricing.Numeric

variable {K : Type*} [Field K]

/-- How far the step from one number to the next goes against a direction: upwards, or downwards. -/
def against (up : Prop) [Decidable up] (x y : K) : K := if up then x - y else y - x

variable {up : Prop} [Decidable up] {x y z : K}

@[simp] theorem against_self : against up x x = 0 := by
  unfold against
  split_ifs <;> exact sub_self x

theorem against_add : against up x y + against up y z = against up x z := by
  unfold against
  split_ifs <;> ring

theorem against_add_add {x' y' : K} :
    against up (x + x') (y + y') = against up x y + against up x' y' := by
  unfold against
  split_ifs <;> ring

variable [LinearOrder K]

/-- The largest step of a list against a direction, none being less than zero. -/
def worstStep (up : Prop) [Decidable up] (l : List K) : K :=
  (List.zipWith (against up) l l.tail).foldr max 0

variable {l : List K} {ε : K}

theorem foldr_max_le {ls : List K} {bound : K} :
    ls.foldr max 0 ≤ bound ↔ 0 ≤ bound ∧ ∀ a ∈ ls, a ≤ bound := by
  induction ls with
  | nil => simp
  | cons a ls ih =>
    rw [List.foldr_cons, max_le_iff, ih, List.forall_mem_cons]
    tauto

theorem mem_zipWith_tail {α β : Type*} {f : α → α → β} {l : List α} {b : β} :
    b ∈ List.zipWith f l l.tail ↔ ∃ x y, [x, y] <:+: l ∧ f x y = b := by
  induction l with
  | nil => simp
  | cons x l ih =>
    cases l with
    | nil => simp [List.infix_cons_iff]
    | cons y l =>
      rw [List.tail_cons, List.zipWith_cons_cons, List.mem_cons]
      rw [List.tail_cons] at ih
      rw [ih]
      constructor
      · rintro (rfl | ⟨x', y', hpair, rfl⟩)
        · exact ⟨x, y, ⟨[], l, rfl⟩, rfl⟩
        · exact ⟨x', y', List.infix_cons hpair, rfl⟩
      · rintro ⟨x', y', hpair, rfl⟩
        rcases List.infix_cons_iff.mp hpair with hhead | hpair
        · obtain ⟨t, ht⟩ := hhead
          simp only [List.cons_append, List.nil_append, List.cons.injEq] at ht
          obtain ⟨rfl, rfl, rfl⟩ := ht
          exact Or.inl rfl
        · exact Or.inr ⟨x', y', hpair, rfl⟩

theorem worstStep_le (hε : 0 ≤ ε) :
    worstStep up l ≤ ε ↔ ∀ x y, [x, y] <:+: l → against up x y ≤ ε := by
  unfold worstStep
  rw [foldr_max_le, and_iff_right hε]
  constructor
  · exact fun h x y hpair => h _ (mem_zipWith_tail.mpr ⟨x, y, hpair, rfl⟩)
  · rintro h _ hmem
    obtain ⟨x, y, hpair, rfl⟩ := mem_zipWith_tail.mp hmem
    exact h x y hpair

variable [IsStrictOrderedRing K]

theorem against_le_of_steps {f : ℕ → K} {i j : ℕ} (hij : i ≤ j)
    (h : ∀ k, i ≤ k → k < j → against up (f k) (f (k + 1)) ≤ ε) :
    against up (f i) (f j) ≤ ε * (j - i : ℕ) := by
  induction j, hij using Nat.le_induction with
  | base => simp
  | succ j hij ih =>
    have hrest := ih fun k hk hkj => h k hk (by omega)
    have hstep := h j hij (Nat.lt_succ_self j)
    have hcount : ((j + 1 - i : ℕ) : K) = (j - i : ℕ) + 1 := by
      rw [Nat.succ_sub hij]
      push_cast
      ring
    rw [← against_add (y := f j), hcount, mul_add, mul_one]
    exact add_le_add hrest hstep

theorem infix_filter_pair {α : Type*} {p : α → Bool} {l : List α} {k : ℕ} {x y : α}
    (hx : l[k]? = some x) (hy : l[k + 1]? = some y) (hpx : p x = true) (hpy : p y = true) :
    [x, y] <:+: l.filter p := by
  have hpair : [x, y] <:+: l := by
    induction l generalizing k with
    | nil => simp at hx
    | cons a l ih =>
      cases k with
      | zero =>
        cases l with
        | nil => simp at hy
        | cons b l =>
          simp only [List.getElem?_cons_zero, List.getElem?_cons_succ, Option.some.injEq] at hx hy
          subst hx hy
          exact ⟨[], l, rfl⟩
      | succ k => exact List.infix_cons (ih (by simpa using hx) (by simpa using hy))
  have hfilter := hpair.filter p
  simpa [hpx, hpy] using hfilter

end GiPricing.Numeric
