import GiPricing.Money.Arithmetic

/-! # The range of the standard context

A result of the standard context stays between the powers of ten that the exact one is between.
-/

namespace GiPricing.Money

open Failure Decimal

variable {q : ℚ}

theorem zpow_sub_mul {N e : ℤ} (h : e ≤ N) : ((10 ^ (N - e).toNat : ℤ) : ℚ) * 10 ^ e = 10 ^ N := by
  have : ((N - e).toNat : ℤ) = N - e := Int.toNat_of_nonneg (by omega)
  push_cast
  rw [← zpow_natCast, this, ← zpow_add₀ (by norm_num)]
  congr 1
  omega

theorem lastPlace_le_log (h : etiny ≤ Int.log 10 |q|) : lastPlace q ≤ Int.log 10 |q| := by
  rw [lastPlace, prec]
  omega

theorem ambient_zero : ambient 0 = 0 := by
  simp [ambient, toGrid, roundInt]

theorem abs_ambient_le {N : ℤ} (hN : etiny ≤ N) (h : |q| ≤ 10 ^ N) : |ambient q| ≤ 10 ^ N := by
  rcases eq_or_ne q 0 with rfl | hq
  · rw [ambient_zero]
    exact h
  have hlog : Int.log 10 |q| ≤ N := by
    have hpow : Int.log 10 ((10 : ℚ) ^ N) = N := by
      exact_mod_cast Int.log_zpow (R := ℚ) (b := 10) (by norm_num) N
    rw [← hpow]
    exact Int.log_mono_right (abs_pos.mpr hq) h
  have hlast : lastPlace q ≤ N := by
    rw [lastPlace, prec]
    omega
  rw [ambient_abs]
  have hplace : lastPlace |q| = lastPlace q := by rw [lastPlace, abs_abs, lastPlace]
  rw [ambient, hplace]
  have := toGrid_le (q := |q|) (z := 10 ^ (N - lastPlace q).toNat) (u := 10 ^ lastPlace q)
    (zpow_pos (by norm_num) _) (by rw [zpow_sub_mul hlast]; exact h)
  rwa [zpow_sub_mul hlast] at this

theorem le_ambient_of_le {N : ℤ} (hN : etiny ≤ N) (h : (10 : ℚ) ^ N ≤ q) :
    (10 : ℚ) ^ N ≤ ambient q := by
  have hq : 0 < q := (zpow_pos (by norm_num) N).trans_le h
  have hlog : N ≤ Int.log 10 |q| := by
    rw [abs_of_pos hq, ← Int.zpow_le_iff_le_log (by norm_num) hq]
    exact_mod_cast h
  have hlast := lastPlace_le_log (hN.trans hlog)
  have hscale := zpow_sub_mul hlast
  have hle : (10 : ℚ) ^ Int.log 10 |q| ≤ q := by
    have := Int.zpow_log_le_self (b := 10) (by norm_num) (abs_pos.mpr hq.ne')
    rw [abs_of_pos hq] at this ⊢
    exact_mod_cast this
  calc (10 : ℚ) ^ N ≤ 10 ^ Int.log 10 |q| := zpow_le_zpow_right₀ (by norm_num) hlog
    _ ≤ ambient q := by
      have := le_toGrid (q := q) (z := 10 ^ (Int.log 10 |q| - lastPlace q).toNat)
        (u := 10 ^ lastPlace q) (zpow_pos (by norm_num) _) (by rw [hscale]; exact hle)
      rwa [hscale] at this

theorem roundInt_le_of_lt_half {z : ℤ} (h : q < z + 1 / 2) : roundInt .halfEven q ≤ z := by
  have hhalf : |q - roundInt .halfEven q| ≤ 1 / 2 := by
    rcases roundInt_halfEven_eq_iff.mp (rfl : roundInt .halfEven q = _) with h | ⟨h, -⟩
    · exact h.le
    · exact h.le
  have hlt : ((roundInt .halfEven q : ℤ) : ℚ) < (z + 1 : ℤ) := by
    push_cast
    linarith [(abs_le.mp hhalf).1]
  exact Int.lt_add_one_iff.mp (by exact_mod_cast hlt)

/-- What is small next to a power of ten does not take a sum beyond it. -/
theorem abs_ambient_le_of_absorbed {N : ℤ} (hN : etiny + prec ≤ N)
    (h : |q| ≤ 10 ^ N + 10 ^ (N - prec - 1)) : |ambient q| ≤ 10 ^ N := by
  have hplaces : (prec : ℤ) = 28 := rfl
  rcases le_or_gt |q| (10 ^ N) with hle | hgt
  · exact abs_ambient_le (by omega) hle
  have hpos : (0 : ℚ) < 10 ^ N := zpow_pos (by norm_num) N
  have hlog : Int.log 10 |q| = N := by
    have hsmall : (10 : ℚ) ^ (N - prec - 1) ≤ 10 ^ N :=
      zpow_le_zpow_right₀ (by norm_num) (by omega)
    have hlow : N ≤ Int.log 10 |q| := by
      rw [← Int.zpow_le_iff_le_log (by norm_num) (hpos.trans hgt)]
      exact_mod_cast hgt.le
    have hhigh : Int.log 10 |q| < N + 1 := by
      rw [← Int.lt_zpow_iff_log_lt (by norm_num) (hpos.trans hgt)]
      push_cast
      rw [zpow_add₀ (by norm_num), zpow_one]
      linarith
    omega
  have hplace : lastPlace |q| = N - prec + 1 := by
    rw [lastPlace, abs_abs, hlog]
    omega
  have hunit : (0 : ℚ) < 10 ^ (N - prec + 1) := zpow_pos (by norm_num) _
  rw [ambient_abs, ambient, hplace, toGrid]
  have hcount : ((10 ^ 27 : ℤ) : ℚ) * 10 ^ (N - prec + 1) = 10 ^ N := by
    rw [← zpow_sub_mul (N := N) (e := N - prec + 1) (by omega)]
    have : (N - (N - prec + 1)).toNat = 27 := by omega
    rw [this]
  have hround : roundInt .halfEven (|q| / 10 ^ (N - prec + 1)) ≤ 10 ^ 27 := by
    apply roundInt_le_of_lt_half
    rw [div_lt_iff₀ hunit, add_mul, hcount]
    have hsplit : (10 : ℚ) ^ (N - prec + 1) = 100 * 10 ^ (N - prec - 1) := by
      rw [show N - prec + 1 = N - prec - 1 + 2 by ring, zpow_add₀ (by norm_num)]
      norm_num [mul_comm]
    have hsmall : (0 : ℚ) < 10 ^ (N - prec - 1) := zpow_pos (by norm_num) _
    rw [hsplit]
    linarith
  calc ((roundInt .halfEven (|q| / 10 ^ (N - prec + 1)) : ℤ) : ℚ) * 10 ^ (N - prec + 1)
      ≤ ((10 ^ 27 : ℤ) : ℚ) * 10 ^ (N - prec + 1) :=
        mul_le_mul_of_nonneg_right (by exact_mod_cast hround) hunit.le
    _ = 10 ^ N := hcount

theorem fix_eq_ok {r : ℚ} :
    fix q = .ok r ↔ |ambient q| < 10 ^ (maxExponent + 1) ∧ ambient q = r := by
  rw [fix, ensure_bind_eq_ok, pure_eq_ok]

theorem fix_of_le {N : ℤ} (hN : etiny ≤ N) (hmax : N ≤ maxExponent) (h : |q| ≤ 10 ^ N) :
    fix q = .ok (ambient q) := by
  apply fix_eq_ok.mpr
  refine ⟨(abs_ambient_le hN h).trans_lt ?_, rfl⟩
  exact zpow_lt_zpow_right₀ (by norm_num) (by omega)

end GiPricing.Money
