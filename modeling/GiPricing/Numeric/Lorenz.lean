import GiPricing.Numeric.Numerals
import Mathlib.Tactic

/-! # Lorenz curves

The area under the curve of the sums of two columns in an order, against that of the order of their
ratios. Twice the area between a curve and its chord is the sum over the pairs of rows of their cross
products, so no order is further from the chord than that of the ratios.
-/

namespace GiPricing.Lorenz

attribute [local instance] Numerals.two

variable {K : Type} [Field K] [LinearOrder K] [IsStrictOrderedRing K] {l l' : List (K × K)}

/-- The sum of the first column: how far along. -/
def along (l : List (K × K)) : K := (l.map Prod.fst).sum

/-- The sum of the second column: how high. -/
def high (l : List (K × K)) : K := (l.map Prod.snd).sum

def doubleArea : K → List (K × K) → K
  | _, [] => 0
  | y, (e, a) :: l => e * (2 * y + a) + doubleArea (y + a) l

def cross : List (K × K) → K
  | [] => 0
  | (e, a) :: l => e * high l - a * along l + cross l

def spread : List (K × K) → K
  | [] => 0
  | (e, a) :: l => (l.map fun r => |e * r.2 - a * r.1|).sum + spread l

omit [LinearOrder K] [IsStrictOrderedRing K] in
@[simp] theorem along_cons (e a : K) : along ((e, a) :: l) = e + along l := by simp [along]

omit [LinearOrder K] [IsStrictOrderedRing K] in
@[simp] theorem high_cons (e a : K) : high ((e, a) :: l) = a + high l := by simp [high]

omit [LinearOrder K] [IsStrictOrderedRing K] in
theorem doubleArea_shift (y : K) : doubleArea y l = 2 * y * along l + doubleArea 0 l := by
  induction l generalizing y with
  | nil => simp [doubleArea, along]
  | cons r l ih =>
    obtain ⟨e, a⟩ := r
    rw [doubleArea, doubleArea, ih (y + a), ih (0 + a), along_cons]
    ring

omit [LinearOrder K] [IsStrictOrderedRing K] in
theorem along_mul_high : along l * high l = doubleArea 0 l + cross l := by
  induction l with
  | nil => simp [doubleArea, cross, along]
  | cons r l ih =>
    obtain ⟨e, a⟩ := r
    rw [doubleArea, doubleArea_shift, cross, along_cons, high_cons]
    linear_combination ih

omit [LinearOrder K] [IsStrictOrderedRing K] in
theorem sum_cross (e a : K) : (l.map fun r => e * r.2 - a * r.1).sum = e * high l - a * along l := by
  induction l with
  | nil => simp [high, along]
  | cons r l ih =>
    obtain ⟨e', a'⟩ := r
    rw [List.map_cons, List.sum_cons, ih, along_cons, high_cons]
    ring

theorem abs_cross_le : |cross l| ≤ spread l := by
  induction l with
  | nil => simp [cross, spread]
  | cons r l ih =>
    obtain ⟨e, a⟩ := r
    rw [cross, spread, ← sum_cross]
    apply (abs_add_le _ _).trans
    apply add_le_add _ ih
    have habs := Multiset.abs_sum_le_sum_abs (s := ((l.map fun r => e * r.2 - a * r.1 : List K) :
      Multiset K))
    simpa only [Multiset.sum_coe, Multiset.map_coe, List.map_map, Function.comp_def] using habs

omit [IsStrictOrderedRing K] in
theorem spread_perm (h : l.Perm l') : spread l = spread l' := by
  induction h with
  | nil => rfl
  | cons r hperm ih =>
    obtain ⟨e, a⟩ := r
    rw [spread, spread, ih, (hperm.map _).sum_eq]
  | swap r r' l =>
    obtain ⟨e, a⟩ := r
    obtain ⟨e', a'⟩ := r'
    simp only [spread, List.map_cons, List.sum_cons]
    rw [abs_sub_comm, mul_comm a' e, mul_comm e' a]
    ring
  | trans _ _ ih ih' => exact ih.trans ih'

theorem cross_eq_spread (h : l.Pairwise fun r r' => r.2 * r'.1 ≤ r.1 * r'.2) : cross l = spread l := by
  induction h with
  | nil => rfl
  | @cons r l hfirst _ ih =>
    obtain ⟨e, a⟩ := r
    rw [cross, spread, ih, ← sum_cross]
    congr 2
    apply List.map_congr_left
    intro r hr
    rw [abs_of_nonneg (sub_nonneg.mpr (hfirst r hr))]

/-- A curve of positive steps that rises is nowhere as far from its chord as the axes. -/
theorem spread_lt (hstep : ∀ r ∈ l, 0 < r.1) (hrise : ∀ r ∈ l, 0 ≤ r.2) (hpos : 0 < high l) :
    spread l < along l * high l := by
  have hle : ∀ {l : List (K × K)}, (∀ r ∈ l, 0 < r.1) → (∀ r ∈ l, 0 ≤ r.2) →
      spread l + (l.map fun r => r.1 * r.2).sum ≤ along l * high l := by
    intro l hstep hrise
    induction l with
    | nil => simp [spread, along]
    | cons r l ih =>
      obtain ⟨e, a⟩ := r
      rw [List.forall_mem_cons] at hstep hrise
      have hcross : (l.map fun r => |e * r.2 - a * r.1|).sum ≤ e * high l + a * along l := by
        have hneg := sum_cross (l := l) e (-a)
        simp only [neg_mul, sub_neg_eq_add] at hneg
        rw [← hneg]
        apply List.sum_le_sum
        intro r hr
        have h1 := mul_nonneg hstep.1.le (hrise.2 r hr)
        have h2 := mul_nonneg hrise.1 (hstep.2 r hr).le
        exact abs_le.mpr ⟨by linarith, by linarith⟩
      have hrest := ih hstep.2 hrise.2
      rw [spread, List.map_cons, List.sum_cons, along_cons, high_cons]
      linarith
  have hproducts : 0 < (l.map fun r => r.1 * r.2).sum := by
    obtain ⟨r, hr, hne⟩ : ∃ r ∈ l, r.2 ≠ 0 := by
      by_contra! hzero
      have hsum : high l = 0 := by
        apply List.sum_eq_zero
        intro x hx
        obtain ⟨r, hr, rfl⟩ := List.mem_map.mp hx
        exact hzero r hr
      exact hpos.ne' hsum
    apply lt_of_lt_of_le (mul_pos (hstep r hr) (lt_of_le_of_ne (hrise r hr) hne.symm))
    apply List.single_le_sum _ _ (List.mem_map.mpr ⟨r, hr, rfl⟩)
    intro x hx
    obtain ⟨r', hr', rfl⟩ := List.mem_map.mp hx
    exact mul_nonneg (hstep r' hr').le (hrise r' hr')
  have hall := hle hstep hrise
  linarith

omit [LinearOrder K] [IsStrictOrderedRing K] in
theorem cross_scale (c d : K) : cross (l.map fun r => (c * r.1, d * r.2)) = c * d * cross l := by
  have halong : ∀ l : List (K × K), along (l.map fun r => (c * r.1, d * r.2)) = c * along l := by
    intro l
    rw [along, along, List.map_map, ← List.sum_map_mul_left]
    rfl
  have hhigh : ∀ l : List (K × K), high (l.map fun r => (c * r.1, d * r.2)) = d * high l := by
    intro l
    rw [high, high, List.map_map, ← List.sum_map_mul_left]
    rfl
  induction l with
  | nil => simp [cross]
  | cons r l ih =>
    obtain ⟨e, a⟩ := r
    rw [List.map_cons, cross, cross, ih, halong, hhigh]
    ring

end GiPricing.Lorenz
