import GiPricing.Money.Range
import GiPricing.Numeric.Accumulate
import GiPricing.Numeric.Significant

/-! # The relative error of the standard context

An operation whose result is a normal number is off by at most half a unit of the last of its 28
digits, and a sum is off by at most the number that was added.
-/

namespace GiPricing.Money

open Accumulate Decimal Failure

variable {p q a b : ℚ} {N M : ℕ}

/-- Half a unit of the last of 28 digits, as a part of the smallest number with those digits. -/
def unitRoundoff : ℚ := 5 / 10 ^ 28

theorem unitRoundoff_nonneg : 0 ≤ unitRoundoff := by norm_num [unitRoundoff]

/-! ## One rounding -/

theorem zpow_lastPlace_pos (q : ℚ) : (0 : ℚ) < 10 ^ lastPlace q := zpow_pos (by norm_num) _

theorem abs_ambient_sub_le_half (q : ℚ) : |ambient q - q| ≤ 10 ^ lastPlace q / 2 := by
  have hunit := zpow_lastPlace_pos q
  have hhalf := abs_sub_roundInt_halfEven_le (q / 10 ^ lastPlace q)
  have hq : q = q / 10 ^ lastPlace q * 10 ^ lastPlace q := (div_mul_cancel₀ q hunit.ne').symm
  calc |ambient q - q|
      = |(roundInt .halfEven (q / 10 ^ lastPlace q) - q / 10 ^ lastPlace q) * 10 ^ lastPlace q| := by
        rw [ambient, toGrid, sub_mul, ← hq]
    _ = |q / 10 ^ lastPlace q - roundInt .halfEven (q / 10 ^ lastPlace q)| * 10 ^ lastPlace q := by
        rw [abs_mul, abs_of_pos hunit, abs_sub_comm]
    _ ≤ 1 / 2 * 10 ^ lastPlace q := mul_le_mul_of_nonneg_right hhalf hunit.le
    _ = 10 ^ lastPlace q / 2 := by ring

theorem abs_roundInt_sub_le_of_int (q : ℚ) (z : ℤ) :
    |(roundInt .halfEven q : ℚ) - q| ≤ |z - q| := by
  have hhalf := abs_sub_roundInt_halfEven_le q
  rw [abs_sub_comm] at hhalf
  rcases eq_or_ne z (roundInt .halfEven q) with rfl | hne
  · exact le_rfl
  · have hone : (1 : ℚ) ≤ |(z : ℚ) - roundInt .halfEven q| := by
      exact_mod_cast Int.one_le_abs (sub_ne_zero.mpr hne)
    have htri : |(z : ℚ) - roundInt .halfEven q| ≤ |z - q| + |q - roundInt .halfEven q| :=
      abs_sub_le _ _ _
    rw [abs_sub_comm q] at htri
    linarith

theorem abs_ambient_sub_le_of_grid (q : ℚ) (z : ℤ) :
    |ambient q - q| ≤ |z * 10 ^ lastPlace q - q| := by
  have hunit := zpow_lastPlace_pos q
  have hscale : ∀ r : ℚ, |r * 10 ^ lastPlace q - q| =
      |r - q / 10 ^ lastPlace q| * 10 ^ lastPlace q := by
    intro r
    rw [← abs_of_pos hunit, ← abs_mul, abs_of_pos hunit, sub_mul, div_mul_cancel₀ _ hunit.ne']
  rw [ambient, toGrid, hscale, hscale]
  exact mul_le_mul_of_nonneg_right (abs_roundInt_sub_le_of_int _ z) hunit.le

/-- The last of 28 digits of a normal number is a part of it. -/
theorem abs_ambient_sub_le (h : (10 : ℚ) ^ (-maxExponent) ≤ |q|) :
    |ambient q - q| ≤ unitRoundoff * |q| := by
  have hq : 0 < |q| := (zpow_pos (by norm_num) _).trans_le h
  have hlog : -maxExponent ≤ Int.log 10 |q| := by
    rw [← Int.zpow_le_iff_le_log (by norm_num) hq]
    exact_mod_cast h
  have hplace : lastPlace q = Int.log 10 |q| - 27 := by
    rw [lastPlace, prec]
    simp only [maxExponent] at hlog
    simp only [etiny]
    omega
  have hdigits : (10 : ℚ) ^ lastPlace q = 10 ^ Int.log 10 |q| / 10 ^ 27 := by
    rw [hplace, zpow_sub₀ (by norm_num)]
    norm_cast
  have hlow := zpow_log_le (abs_pos.mp hq)
  calc |ambient q - q| ≤ 10 ^ lastPlace q / 2 := abs_ambient_sub_le_half q
    _ = unitRoundoff * 10 ^ Int.log 10 |q| := by
      rw [hdigits, unitRoundoff]
      ring
    _ ≤ unitRoundoff * |q| := mul_le_mul_of_nonneg_left hlow unitRoundoff_nonneg

/-! ## Rounded numbers -/

/-- A number of at most 28 digits, none below the smallest place. -/
def Kept (a : ℚ) : Prop := ∃ (z : ℤ) (e : ℤ), etiny ≤ e ∧ |z| < 10 ^ prec ∧ a = z * 10 ^ e

theorem kept_zero : Kept 0 := ⟨0, 0, by decide, by norm_num [prec], by norm_num⟩

theorem kept_ambient (q : ℚ) : Kept (ambient q) := by
  have hunit := zpow_lastPlace_pos q
  set z := roundInt .halfEven (q / 10 ^ lastPlace q)
  have hplace : Int.log 10 |q| + 1 ≤ lastPlace q + prec := by
    rw [lastPlace, prec]
    omega
  have habs : |q / 10 ^ lastPlace q| ≤ ((10 ^ prec : ℤ) : ℚ) := by
    rw [abs_div, abs_of_pos hunit, div_le_iff₀ hunit]
    push_cast
    calc |q| ≤ 10 ^ (Int.log 10 |q| + 1) := (lt_zpow_log q).le
      _ ≤ 10 ^ (lastPlace q + prec) := zpow_le_zpow_right₀ (by norm_num) hplace
      _ = 10 ^ prec * 10 ^ lastPlace q := by
        rw [add_comm, zpow_add₀ (by norm_num), zpow_natCast]
  have hz : |z| ≤ 10 ^ prec := abs_roundInt_le habs
  have hambient : ambient q = z * 10 ^ lastPlace q := rfl
  rcases hz.lt_or_eq with hlt | heq
  · exact ⟨z, lastPlace q, le_max_right _ _, hlt, hambient⟩
  · -- The mantissa was carried to ten to the 28: one digit fewer at the next place.
    obtain ⟨w, hw, hz'⟩ : ∃ w : ℤ, |w| < 10 ^ prec ∧ z = w * 10 := by
      rcases abs_eq (by positivity) |>.mp heq with h | h
      · exact ⟨10 ^ 27, by norm_num [prec], by rw [h, prec]; norm_num⟩
      · exact ⟨-10 ^ 27, by norm_num [prec], by rw [h, prec]; norm_num⟩
    refine ⟨w, lastPlace q + 1, (le_max_right _ _).trans (Int.le_add_one le_rfl), hw, ?_⟩
    rw [hambient, zpow_add₀ (by norm_num), zpow_one, hz']
    push_cast
    ring

/-- What is added to a number of at most 28 digits bounds the error of the addition. -/
theorem abs_ambient_add_sub_le (ha : Kept a) (hb : 0 ≤ b) (hsum : 0 ≤ a) :
    |ambient (a + b) - (a + b)| ≤ b := by
  obtain ⟨z, e, he, hz, haz⟩ := ha
  rcases eq_or_ne (a + b) 0 with h0 | hne
  · rw [h0, ambient_zero, sub_zero, abs_zero]
    exact hb
  rcases le_or_gt (lastPlace (a + b)) e with hle | hgt
  · have hgrid : a = ((z * 10 ^ (e - lastPlace (a + b)).toNat : ℤ) : ℚ) * 10 ^ lastPlace (a + b) := by
      rw [Int.cast_mul, mul_assoc, zpow_sub_mul hle]
      exact haz
    calc |ambient (a + b) - (a + b)| ≤ |a - (a + b)| := by
          have := abs_ambient_sub_le_of_grid (a + b) (z * 10 ^ (e - lastPlace (a + b)).toNat)
          rwa [← hgrid] at this
      _ = b := by rw [sub_add_cancel_left, abs_neg, abs_of_nonneg hb]
  · -- The sum has a digit more than the number it was added to: a power of ten lies between.
    have hplace : lastPlace (a + b) = Int.log 10 |a + b| - 27 := by
      have := he.trans_lt hgt
      rw [lastPlace, prec] at this ⊢
      omega
    set L := Int.log 10 |a + b|
    have hlow : (10 : ℚ) ^ L ≤ a + b := by
      calc (10 : ℚ) ^ L ≤ |a + b| := zpow_log_le hne
        _ = a + b := abs_of_nonneg (add_nonneg hsum hb)
    have hhigh : a ≤ 10 ^ L := by
      have hz' : (z : ℚ) ≤ 10 ^ prec := by
        have := (abs_lt.mp hz).2.le
        exact_mod_cast this
      calc a = z * 10 ^ e := haz
        _ ≤ 10 ^ prec * 10 ^ e := mul_le_mul_of_nonneg_right hz' (zpow_pos (by norm_num) _).le
        _ = 10 ^ (prec + e) := by rw [zpow_add₀ (by norm_num), zpow_natCast]
        _ ≤ 10 ^ L := zpow_le_zpow_right₀ (by norm_num) (by rw [prec]; omega)
    have hgrid : (10 : ℚ) ^ L = ((10 ^ 27 : ℤ) : ℚ) * 10 ^ lastPlace (a + b) := by
      rw [hplace, zpow_sub₀ (by norm_num)]
      norm_num
      ring
    have hnear := abs_ambient_sub_le_of_grid (a + b) (10 ^ 27)
    rw [← hgrid, abs_sub_comm (10 ^ L : ℚ), abs_of_nonneg (sub_nonneg.mpr hlow)] at hnear
    linarith

theorem roundedSum (ha : Kept a) (hsum : 0 ≤ a) (hb : b = 0 ∨ (10 : ℚ) ^ (-maxExponent) ≤ b) :
    RoundedSum unitRoundoff a b (ambient (a + b)) := by
  have hb0 : 0 ≤ b := by
    rcases hb with rfl | hb
    · exact le_rfl
    · exact (zpow_pos (by norm_num) _).le.trans hb
  have hadded := abs_ambient_add_sub_le ha hb0 hsum
  refine ⟨?_, hadded⟩
  have habs : |a + b| = a + b := abs_of_nonneg (add_nonneg hsum hb0)
  rcases hb with rfl | hb
  · exact hadded.trans (mul_nonneg unitRoundoff_nonneg (by rwa [add_zero]))
  · have := abs_ambient_sub_le (q := a + b) (by rw [habs]; linarith)
    rwa [habs] at this

/-! ## Ranges -/

/-- Zero, or a number between two powers of ten. -/
def InRange (N : ℕ) (q : ℚ) : Prop := q = 0 ∨ (10 : ℚ) ^ (-N : ℤ) ≤ |q| ∧ |q| ≤ 10 ^ (N : ℤ)

theorem InRange.abs_le (h : InRange N q) : |q| ≤ 10 ^ (N : ℤ) := by
  rcases h with rfl | ⟨-, h⟩
  · rw [abs_zero]
    exact (zpow_pos (by norm_num) _).le
  · exact h

theorem InRange.mul (hp : InRange N p) (hq : InRange M q) : InRange (N + M) (p * q) := by
  rcases hp with rfl | ⟨hp1, hp2⟩
  · exact Or.inl (zero_mul q)
  rcases hq with rfl | ⟨hq1, hq2⟩
  · exact Or.inl (mul_zero p)
  right
  have hneg : (-(N + M : ℕ) : ℤ) = -N + -M := by push_cast; ring
  have hpos : ((N + M : ℕ) : ℤ) = N + M := by push_cast; rfl
  rw [abs_mul, hneg, hpos, zpow_add₀ (by norm_num), zpow_add₀ (by norm_num)]
  exact ⟨mul_le_mul hp1 hq1 (zpow_pos (by norm_num) _).le (abs_nonneg p),
    mul_le_mul hp2 hq2 (abs_nonneg q) (zpow_pos (by norm_num) _).le⟩

theorem InRange.mono (h : InRange N q) (hle : N ≤ M) : InRange M q := by
  rcases h with h | ⟨h1, h2⟩
  · exact Or.inl h
  · right
    exact ⟨(zpow_le_zpow_right₀ (by norm_num) (by omega)).trans h1,
      h2.trans (zpow_le_zpow_right₀ (by norm_num) (by omega))⟩

/-- A number of the normal range stays in it. -/
theorem InRange.ambient (h : InRange N q) (hN : (N : ℤ) ≤ maxExponent) :
    InRange N (Money.ambient q) := by
  rcases h with rfl | ⟨h1, h2⟩
  · exact Or.inl ambient_zero
  · right
    have hmax : maxExponent = 999999 := rfl
    have htiny : etiny = -1000026 := rfl
    refine ⟨?_, abs_ambient_le (by omega) h2⟩
    rw [ambient_abs]
    exact le_ambient_of_le (by omega) h1

theorem InRange.fix (h : InRange N q) (hN : (N : ℤ) ≤ maxExponent) :
    fix q = .ok (Money.ambient q) :=
  fix_of_le (by simp only [etiny]; omega) hN h.abs_le

theorem InRange.abs_ambient_sub_le (h : InRange N q) (hN : (N : ℤ) ≤ maxExponent) :
    |Money.ambient q - q| ≤ unitRoundoff * |q| := by
  rcases h with rfl | ⟨h, -⟩
  · simp [ambient_zero]
  · refine Money.abs_ambient_sub_le (le_trans ?_ h)
    exact zpow_le_zpow_right₀ (by norm_num) (by omega)

theorem nonneg_iff_of_off {r : ℚ} (h : |r - q| ≤ p * |q|) (hp : p < 1) : 0 ≤ r ↔ 0 ≤ q := by
  obtain ⟨h1, h2⟩ := abs_le.mp h
  constructor
  · intro hr
    by_contra hq
    rw [abs_of_neg (not_le.mp hq)] at h1 h2
    nlinarith
  · intro hq
    rw [abs_of_nonneg hq] at h1
    nlinarith

end GiPricing.Money
