import GiPricing.Numeric.Numerals
import Mathlib

/-! # Poisson rates by level

The deviance of counts over exposures with one rate for each level. The rates that total counts over
total exposures give are the only least ones, so a coarser levelling has a larger deviance unless it
puts together equal rates only.
-/

namespace GiPricing.Poisson

open Finset

attribute [local instance] Numerals.two

variable {ι S T : Type} [Fintype ι] [DecidableEq S] [DecidableEq T] {e y : ι → ℝ} {level : ι → S}

def total (level : ι → S) (x : ι → ℝ) (l : S) : ℝ := ∑ i with level i = l, x i

noncomputable def rate (e y : ι → ℝ) (level : ι → S) (l : S) : ℝ :=
  total level y l / total level e l

/-- What a count adds to half a deviance; a count of zero has no logarithm. -/
noncomputable def unitDeviance (y mu : ℝ) : ℝ :=
  -(y - mu) + if 0 < y then y * Real.log (y / mu) else 0

noncomputable def deviance (e y : ι → ℝ) (level : ι → S) (r : S → ℝ) : ℝ :=
  2 * ∑ i, unitDeviance (y i) (r (level i) * e i)

/-- Rates under which the counts can be; the deviance of others is infinite. -/
def Admissible (y : ι → ℝ) (level : ι → S) (r : S → ℝ) : Prop :=
  ∀ i, 0 ≤ r (level i) ∧ (0 < y i → 0 < r (level i))

/-- Positive exposures and counts that are not negative. -/
structure Exposed (e y : ι → ℝ) : Prop where
  exposure : ∀ i, 0 < e i
  count : ∀ i, 0 ≤ y i

/-! ## The gap to another rate -/

noncomputable def gap (r s : ℝ) : ℝ := r * Real.log (r / s) + (s - r)

theorem gap_nonneg {r s : ℝ} (hr : 0 ≤ r) (hs : 0 ≤ s) (h : 0 < r → 0 < s) : 0 ≤ gap r s := by
  obtain rfl | hpos := hr.eq_or_lt
  · simpa [gap] using hs
  · have hlog := Real.log_le_sub_one_of_pos (div_pos (h hpos) hpos)
    have hflip : Real.log (r / s) = -Real.log (s / r) := by
      rw [← Real.log_inv, inv_div]
    have hmul := mul_le_mul_of_nonneg_left hlog hr
    rw [mul_sub, mul_div_cancel₀ _ hpos.ne'] at hmul
    rw [gap, hflip]
    linarith

theorem gap_eq_zero_iff {r s : ℝ} (hr : 0 ≤ r) (h : 0 < r → 0 < s) : gap r s = 0 ↔ s = r := by
  constructor
  · intro hzero
    obtain rfl | hpos := hr.eq_or_lt
    · simpa [gap] using hzero
    · by_contra hne
      have hone : s / r ≠ 1 := fun hdiv => hne ((div_eq_one_iff_eq hpos.ne').mp hdiv)
      have hlog := Real.log_lt_sub_one_of_pos (div_pos (h hpos) hpos) hone
      have hflip : Real.log (r / s) = -Real.log (s / r) := by
        rw [← Real.log_inv, inv_div]
      have hmul := mul_lt_mul_of_pos_left hlog hpos
      rw [mul_sub, mul_div_cancel₀ _ hpos.ne'] at hmul
      rw [gap, hflip] at hzero
      linarith
  · rintro rfl
    obtain rfl | hpos := hr.eq_or_lt
    · simp [gap]
    · simp [gap, div_self hpos.ne']

section Rates

variable (h : Exposed e y)
include h

theorem total_exposure_pos (i : ι) : 0 < total level e (level i) :=
  sum_pos (fun j _ => h.exposure j) ⟨i, by simp⟩

theorem total_count_nonneg (l : S) : 0 ≤ total level y l := sum_nonneg fun j _ => h.count j

theorem rate_nonneg (i : ι) : 0 ≤ rate e y level (level i) :=
  div_nonneg (total_count_nonneg h _) (total_exposure_pos h i).le

theorem count_le_total (i : ι) : y i ≤ total level y (level i) :=
  single_le_sum (fun j _ => h.count j) (by simp)

theorem rate_pos_iff (i : ι) : 0 < rate e y level (level i) ↔ 0 < total level y (level i) :=
  div_pos_iff_of_pos_right (total_exposure_pos h i)

theorem rate_pos {i : ι} (hi : 0 < y i) : 0 < rate e y level (level i) :=
  (rate_pos_iff h i).mpr (hi.trans_le (count_le_total h i))

theorem unitDeviance_of_rate_zero {i : ι} (hi : rate e y level (level i) = 0) :
    unitDeviance (y i) (rate e y level (level i) * e i) = 0 := by
  have hzero : y i = 0 := by
    by_contra hne
    have hpos : 0 < rate e y level (level i) :=
      rate_pos h (lt_of_le_of_ne (h.count i) (Ne.symm hne))
    rw [hi] at hpos
    exact lt_irrefl _ hpos
  rw [hi, hzero]
  simp [unitDeviance]

theorem sum_count_mul (f : S → ℝ) :
    ∑ i, y i * f (level i) = ∑ i, rate e y level (level i) * e i * f (level i) := by
  have hfibre : ∀ x : ι → ℝ, ∑ i, x i * f (level i) =
      ∑ l ∈ univ.image level, total level x l * f l := by
    intro x
    rw [← sum_fiberwise_of_maps_to (g := level) (t := univ.image level)
      (fun i _ => mem_image_of_mem level (mem_univ i))]
    apply sum_congr rfl
    intro l _
    rw [total, sum_mul]
    apply sum_congr rfl
    intro i hi
    rw [(mem_filter.mp hi).2]
  rw [hfibre y, hfibre fun i => rate e y level (level i) * e i]
  apply sum_congr rfl
  intro l hl
  obtain ⟨i, -, rfl⟩ := mem_image.mp hl
  have hexpected : total level (fun j => rate e y level (level j) * e j) (level i) =
      rate e y level (level i) * total level e (level i) := by
    rw [total, total, mul_sum]
    apply sum_congr rfl
    intro j hj
    rw [(mem_filter.mp hj).2]
  rw [hexpected, rate, div_mul_cancel₀ _ (total_exposure_pos h i).ne']

/-- Another deviance is larger by the gaps of its rates. -/
theorem deviance_sub {r : S → ℝ} (hr : Admissible y level r) :
    deviance e y level r - deviance e y level (rate e y level) =
      2 * ∑ i, e i * gap (rate e y level (level i)) (r (level i)) := by
  have hrow : ∀ i, unitDeviance (y i) (r (level i) * e i) -
      unitDeviance (y i) (rate e y level (level i) * e i) =
      y i * Real.log (rate e y level (level i) / r (level i)) +
        (r (level i) - rate e y level (level i)) * e i := by
    intro i
    obtain hzero | hpos := (h.count i).eq_or_lt
    · simp [unitDeviance, ← hzero]
      ring
    · have he := (h.exposure i).ne'
      have hrate : rate e y level (level i) ≠ 0 := (rate_pos h hpos).ne'
      have hother := ((hr i).2 hpos).ne'
      rw [unitDeviance, unitDeviance, if_pos hpos, if_pos hpos,
        Real.log_div hpos.ne' (mul_ne_zero hother he), Real.log_div hpos.ne' (mul_ne_zero hrate he),
        Real.log_mul hother he, Real.log_mul hrate he, Real.log_div hrate hother]
      ring
  calc deviance e y level r - deviance e y level (rate e y level)
    _ = 2 * (∑ i, y i * Real.log (rate e y level (level i) / r (level i)) +
          ∑ i, (r (level i) - rate e y level (level i)) * e i) := by
      rw [deviance, deviance, ← mul_sub, ← sum_sub_distrib, sum_congr rfl fun i _ => hrow i,
        sum_add_distrib]
    _ = 2 * ∑ i, e i * gap (rate e y level (level i)) (r (level i)) := by
      rw [sum_count_mul h fun l => Real.log (rate e y level l / r l), ← sum_add_distrib]
      congr 1
      apply sum_congr rfl
      intro i _
      rw [gap]
      ring

theorem pos_of_rate_pos {r : S → ℝ} (hr : Admissible y level r) (i : ι)
    (hi : 0 < rate e y level (level i)) : 0 < r (level i) := by
  obtain ⟨j, hj, hpos⟩ := exists_lt_of_sum_lt (f := fun _ => (0 : ℝ)) (g := y)
    (s := univ.filter fun j => level j = level i)
    (by rw [sum_const_zero]; exact (rate_pos_iff h i).mp hi)
  have hlevel := (hr j).2 hpos
  rwa [(mem_filter.mp hj).2] at hlevel

theorem gap_rate_nonneg {r : S → ℝ} (hr : Admissible y level r) (i : ι) :
    0 ≤ e i * gap (rate e y level (level i)) (r (level i)) :=
  mul_nonneg (h.exposure i).le
    (gap_nonneg (rate_nonneg h i) (hr i).1 (pos_of_rate_pos h hr i))

theorem admissible_rate : Admissible y level (rate e y level) :=
  fun i => ⟨rate_nonneg h i, rate_pos h⟩

theorem isLeast_deviance :
    IsLeast {d | ∃ r, Admissible y level r ∧ deviance e y level r = d}
      (deviance e y level (rate e y level)) := by
  refine ⟨⟨_, admissible_rate h, rfl⟩, ?_⟩
  rintro d ⟨r, hr, rfl⟩
  have hsub := deviance_sub h hr
  have hnonneg := sum_nonneg fun i (_ : i ∈ univ) => gap_rate_nonneg h hr i
  linarith

theorem deviance_eq_iff {r : S → ℝ} (hr : Admissible y level r) :
    deviance e y level r = deviance e y level (rate e y level) ↔
      ∀ i, r (level i) = rate e y level (level i) := by
  have hzero : deviance e y level r = deviance e y level (rate e y level) ↔
      ∑ i, e i * gap (rate e y level (level i)) (r (level i)) = 0 := by
    have hsub := deviance_sub h hr
    constructor <;> intro heq <;> linarith
  rw [hzero, sum_eq_zero_iff_of_nonneg fun i _ => gap_rate_nonneg h hr i]
  constructor
  · intro hall i
    have hgap := (mul_eq_zero.mp (hall i (mem_univ i))).resolve_left (h.exposure i).ne'
    exact (gap_eq_zero_iff (rate_nonneg h i) (pos_of_rate_pos h hr i)).mp hgap
  · intro hall i _
    rw [(gap_eq_zero_iff (rate_nonneg h i) (pos_of_rate_pos h hr i)).mpr (hall i), mul_zero]

/-! ## Putting levels together -/

section Merge

variable {merge : S → T}

omit [DecidableEq S] in
theorem admissible_merged : Admissible y level (rate e y (merge ∘ level) ∘ merge) := by
  have hmerged : Admissible y (merge ∘ level) (rate e y (merge ∘ level)) := admissible_rate h
  exact hmerged

theorem deviance_le_merged :
    deviance e y level (rate e y level) ≤
      deviance e y (merge ∘ level) (rate e y (merge ∘ level)) :=
  (isLeast_deviance h).2 ⟨_, admissible_merged h, rfl⟩

theorem merged_rate_iff :
    (∀ i, rate e y (merge ∘ level) (merge (level i)) = rate e y level (level i)) ↔
      ∀ i j, merge (level i) = merge (level j) →
        rate e y level (level i) = rate e y level (level j) := by
  constructor
  · intro hall i j hij
    rw [← hall i, ← hall j, hij]
  · intro hsame i
    have hcounts : total (merge ∘ level) y (merge (level i)) =
        rate e y level (level i) * total (merge ∘ level) e (merge (level i)) := by
      have hf : ∑ j, y j * (if merge (level j) = merge (level i) then 1 else 0) = _ :=
        sum_count_mul h fun l => if merge l = merge (level i) then 1 else 0
      simp only [mul_ite, mul_one, mul_zero, ← sum_filter] at hf
      rw [total, total, mul_sum]
      refine hf.trans (sum_congr rfl fun j hj => ?_)
      rw [hsame j i (mem_filter.mp hj).2]
    have hpos : 0 < total (merge ∘ level) e (merge (level i)) := total_exposure_pos h i
    rw [rate, hcounts, mul_div_cancel_right₀ _ hpos.ne']

theorem deviance_merged_eq_iff :
    deviance e y (merge ∘ level) (rate e y (merge ∘ level)) =
        deviance e y level (rate e y level) ↔
      ∀ i j, merge (level i) = merge (level j) →
        rate e y level (level i) = rate e y level (level j) := by
  have hrates : deviance e y (merge ∘ level) (rate e y (merge ∘ level)) =
      deviance e y level (rate e y (merge ∘ level) ∘ merge) := rfl
  rw [← merged_rate_iff h, hrates, deviance_eq_iff h (admissible_merged h)]
  rfl

end Merge

end Rates

end GiPricing.Poisson
