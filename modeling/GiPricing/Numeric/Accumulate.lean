import Mathlib.Tactic

/-! # Rounded sums

A sum of nonnegative numbers, each addition rounded to a nearest number. The error grows with the
number of additions only, however many they are: an addition is within a part `u` of what it rounds,
and within the number added, since the sum before it is a rounded number.
-/

namespace GiPricing.Accumulate

variable {K : Type*} [Field K] [LinearOrder K] [IsStrictOrderedRing K]
  {u t t' s x y : K} {k : ℕ}

/-- `t'` is what the sum of `t` and `x` is rounded to. -/
structure RoundedSum (u t x t' : K) : Prop where
  within_part : |t' - (t + x)| ≤ u * (t + x)
  within_added : |t' - (t + x)| ≤ x

/-- A sum of `k` numbers is within `k` parts of the exact one. -/
def Close (u : K) (k : ℕ) (s t : K) : Prop := |t - s| ≤ k * u * s

theorem close_zero (u : K) : Close u 0 0 0 := by simp [Close]

/-- One more addition costs one more part. Where the number added is small next to the sum, the error
of the addition is at most that number; else it is a part of the new sum, and what it adds to the
error before is a part of the number added. -/
theorem Close.add (hu : 0 ≤ u) (hx : 0 ≤ x) (h : Close u k s t)
    (ht : RoundedSum u t x t') : Close u (k + 1) (s + x) t' := by
  have hsplit : t' - (s + x) = (t' - (t + x)) + (t - s) := by ring
  have htri : |t' - (s + x)| ≤ |t' - (t + x)| + |t - s| := by
    rw [hsplit]
    exact abs_add_le _ _
  have hk : (0 : K) ≤ k := Nat.cast_nonneg k
  have hku : (0 : K) ≤ k * u := mul_nonneg hk hu
  have hclose : |t - s| ≤ k * u * s := h
  rw [Close]
  push_cast
  rcases le_or_gt x (u * s) with hsmall | hlarge
  · have hux : 0 ≤ (k + 1) * u * x := by positivity
    have hadded := ht.within_added
    calc |t' - (s + x)| ≤ u * s + k * u * s := by linarith
      _ = (k + 1) * u * s := by ring
      _ ≤ (k + 1) * u * (s + x) := by linarith
  · have hsum : t ≤ s + k * u * s := by
      have := (abs_le.mp hclose).2
      linarith
    have hpart : |t' - (t + x)| ≤ u * (s + x) + k * u * x := by
      have hmono : u * (t + x) ≤ u * (s + k * u * s + x) := by
        apply mul_le_mul_of_nonneg_left _ hu
        linarith
      have hscaled : k * u * (u * s) ≤ k * u * x := mul_le_mul_of_nonneg_left hlarge.le hku
      calc |t' - (t + x)| ≤ u * (t + x) := ht.within_part
        _ ≤ u * (s + k * u * s + x) := hmono
        _ = u * (s + x) + k * u * (u * s) := by ring
        _ ≤ u * (s + x) + k * u * x := by linarith
    calc |t' - (s + x)| ≤ u * (s + x) + k * u * x + k * u * s := by linarith
      _ = (k + 1) * u * (s + x) := by ring

/-- A sum of `k` numbers, each off by a part `v` before it was added. -/
def Tracks (u v : K) (k : ℕ) (s t : K) : Prop := ∃ s', |s' - s| ≤ v * s ∧ Close u k s' t

theorem tracks_zero (u v : K) : Tracks u v 0 0 0 := ⟨0, by simp, close_zero u⟩

theorem Tracks.add {v : K} (hu : 0 ≤ u) (hy : 0 ≤ y) (h : Tracks u v k s t)
    (hoff : |y - x| ≤ v * x) (ht : RoundedSum u t y t') : Tracks u v (k + 1) (s + x) t' := by
  obtain ⟨s', hs', hclose⟩ := h
  refine ⟨s' + y, ?_, hclose.add hu hy ht⟩
  calc |s' + y - (s + x)| = |(s' - s) + (y - x)| := by ring_nf
    _ ≤ |s' - s| + |y - x| := abs_add_le _ _
    _ ≤ v * (s + x) := by linarith

theorem Tracks.abs_sub_le {v : K} (hu : 0 ≤ u) (h : Tracks u v k s t) :
    |t - s| ≤ (k * u * (1 + v) + v) * s := by
  obtain ⟨s', hs, hclose⟩ := h
  have hku : (0 : K) ≤ k * u := mul_nonneg (Nat.cast_nonneg k) hu
  have hle : s' ≤ (1 + v) * s := by
    have := (abs_le.mp hs).2
    linarith
  have hclose : |t - s'| ≤ k * u * s' := hclose
  have hmono : k * u * s' ≤ k * u * ((1 + v) * s) := mul_le_mul_of_nonneg_left hle hku
  calc |t - s| = |(t - s') + (s' - s)| := by ring_nf
    _ ≤ |t - s'| + |s' - s| := abs_add_le _ _
    _ ≤ k * u * ((1 + v) * s) + v * s := by linarith
    _ = (k * u * (1 + v) + v) * s := by ring

theorem off_twice {a b c : K} (hu : 0 ≤ u) (hab : |b - a| ≤ u * |a|) {l : K}
    (hc : |c - b * l| ≤ u * |b * l|) : |c - a * l| ≤ (2 * u + u ^ 2) * |a * l| := by
  have hb : |b| ≤ (1 + u) * |a| := by
    have := abs_sub_abs_le_abs_sub b a
    linarith
  have hbl : |b * l| ≤ (1 + u) * |a * l| := by
    rw [abs_mul, abs_mul, ← mul_assoc]
    exact mul_le_mul_of_nonneg_right hb (abs_nonneg l)
  have hshift : |b * l - a * l| ≤ u * |a * l| := by
    rw [← sub_mul, abs_mul, abs_mul, ← mul_assoc]
    exact mul_le_mul_of_nonneg_right hab (abs_nonneg l)
  have hmono : u * |b * l| ≤ u * ((1 + u) * |a * l|) := mul_le_mul_of_nonneg_left hbl hu
  calc |c - a * l| = |(c - b * l) + (b * l - a * l)| := by ring_nf
    _ ≤ |c - b * l| + |b * l - a * l| := abs_add_le _ _
    _ ≤ u * ((1 + u) * |a * l|) + u * |a * l| := by linarith
    _ = (2 * u + u ^ 2) * |a * l| := by ring

end GiPricing.Accumulate
