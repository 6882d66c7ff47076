import GiPricing.Failure.Except
import GiPricing.Numeric.Significant

/-! # Decimal contexts

A context rounds the exact result of an operation to its digits. It raises where the result is past
its greatest exponent. Below its least exponent a result is rounded on the grid of the least number
it has, and nothing is raised.
-/

namespace GiPricing.Decimal

open Failure

inductive Signal | invalidOperation | divisionByZero | overflow
  deriving DecidableEq, Repr

/-- The digits of a context and the exponents of its normal numbers. -/
structure Context where
  prec : ℕ
  emin : ℤ
  emax : ℤ

namespace Context

def etiny (c : Context) : ℤ := c.emin - c.prec + 1

def unit (c : Context) (q : ℚ) : ℚ := 10 ^ max (Int.log 10 |q| - c.prec + 1) c.etiny

def fix (c : Context) (q : ℚ) : Except Signal ℚ :=
  let rounded := toGrid (c.unit q) q
  if 10 ^ (c.emax + 1) ≤ |rounded| then .error .overflow else .ok rounded

def add (c : Context) (p q : ℚ) : Except Signal ℚ := c.fix (p + q)

def sub (c : Context) (p q : ℚ) : Except Signal ℚ := c.fix (p - q)

def mul (c : Context) (p q : ℚ) : Except Signal ℚ := c.fix (p * q)

def div (c : Context) (p q : ℚ) : Except Signal ℚ :=
  if q = 0 then .error (if p = 0 then .invalidOperation else .divisionByZero) else c.fix (p / q)

def abs (c : Context) (q : ℚ) : Except Signal ℚ := c.fix |q|

variable {c : Context} {p q r : ℚ} {s : Signal}

/-! ## Results within the exponents -/

theorem unit_of_normal (h : 10 ^ c.emin ≤ |q|) : c.unit q = Decimal.unit c.prec q := by
  have hq : 0 < |q| := (zpow_pos (by norm_num) _).trans_le h
  have hlog : c.emin ≤ Int.log 10 |q| :=
    (Int.zpow_le_iff_le_log (by norm_num) hq).mp (by exact_mod_cast h)
  rw [unit, Decimal.unit, max_eq_left]
  rw [etiny]
  omega

theorem unit_of_small (h : |q| < 10 ^ c.emin) (hq : q ≠ 0) : c.unit q = 10 ^ c.etiny := by
  have hlog : Int.log 10 |q| < c.emin :=
    (Int.lt_zpow_iff_log_lt (by norm_num) (abs_pos.mpr hq)).mp (by exact_mod_cast h)
  rw [unit, max_eq_right]
  rw [etiny]
  omega

theorem toGrid_of_onGrid {e : ℤ} (h : OnGrid e q) : toGrid (10 ^ e) q = q := by
  obtain ⟨m, rfl⟩ := h
  have hten : (10 : ℚ) ^ e ≠ 0 := zpow_ne_zero e (by norm_num)
  rw [toGrid, mul_div_cancel_right₀ _ hten, roundInt_intCast]

theorem abs_toGrid_le {u : ℚ} {z : ℤ} (hu : 0 < u) (h : |q| ≤ z * u) : |toGrid u q| ≤ z * u := by
  obtain ⟨hlo, hhi⟩ := abs_le.mp h
  refine abs_le.mpr ⟨?_, toGrid_le hu hhi⟩
  have hneg := le_toGrid (z := -z) hu (by push_cast; linarith)
  push_cast at hneg
  linarith

theorem toGrid_unit (h : 10 ^ c.emin ≤ |q| ∨ OnGrid c.etiny q) :
    toGrid (c.unit q) q = roundSig c.prec q := by
  rcases le_or_gt (10 ^ c.emin) |q| with hq | hq
  · rw [unit_of_normal hq, toGrid, roundSig]
  rcases eq_or_ne q 0 with rfl | hq0
  · simp [toGrid, roundInt]
  have hgrid := h.resolve_left (not_le.mpr hq)
  have hfits : Fits c.prec q := by
    apply hgrid.fits
    rw [show c.etiny + c.prec = c.emin + 1 by rw [etiny]; ring]
    exact hq.trans (zpow_lt_zpow_right₀ (by norm_num) (by omega))
  rw [unit_of_small hq hq0, toGrid_of_onGrid hgrid, hfits.roundSig_eq]

theorem fix_eq (hprec : 0 < c.prec) (hlow : 10 ^ c.emin ≤ |q| ∨ OnGrid c.etiny q)
    (hhigh : |q| ≤ 2 * 10 ^ c.emax) : c.fix q = .ok (roundSig c.prec q) := by
  have htwo : Fits c.prec (2 * 10 ^ c.emax) := Fits.mono ⟨2, c.emax, by norm_num, by simp⟩ hprec
  have hlt : |roundSig c.prec q| < 10 ^ (c.emax + 1) := by
    calc |roundSig c.prec q| = roundSig c.prec |q| := (roundSig_abs _ _).symm
      _ ≤ roundSig c.prec (2 * 10 ^ c.emax) := roundSig_mono hprec hhigh
      _ = 2 * 10 ^ c.emax := htwo.roundSig_eq
      _ < 10 * 10 ^ c.emax := mul_lt_mul_of_pos_right (by norm_num) (zpow_pos (by norm_num) _)
      _ = 10 ^ (c.emax + 1) := by rw [zpow_add_one₀ (by norm_num), mul_comm]
  simp only [fix, toGrid_unit hlow, if_neg (not_le.mpr hlt)]

/-- A result above the least exponent was rounded to its digits. -/
theorem fix_eq_ok (hprec : 0 < c.prec) (h : c.fix q = .ok r) (hr : 10 ^ c.emin < |r|) : r = roundSig c.prec q := by
  simp only [fix] at h
  split_ifs at h
  obtain rfl := Except.ok.inj h
  rcases le_or_gt (10 ^ c.emin) |q| with hq | hq
  · exact toGrid_unit (Or.inl hq)
  exfalso
  rcases eq_or_ne q 0 with rfl | hq0
  · have hpos : (0 : ℚ) < 10 ^ c.emin := zpow_pos (by norm_num) _
    simp [toGrid, roundInt] at hr
    linarith
  rw [unit_of_small hq hq0] at hr
  obtain ⟨m, hm⟩ : OnGrid c.etiny (10 ^ c.emin) :=
    OnGrid.mono ⟨1, by simp⟩ (show c.etiny ≤ c.emin by rw [etiny]; omega)
  rw [hm] at hq hr
  exact absurd (abs_toGrid_le (zpow_pos (by norm_num) _) hq.le) (not_le.mpr hr)

/-! ## Signals -/

theorem fix_eq_error (h : c.fix q = .error s) : s = .overflow := by
  simp only [fix] at h
  split_ifs at h
  exact (Except.error.inj h).symm

theorem div_eq_error (h : c.div p q = .error s) (hq : q ≠ 0) : s = .overflow := by
  rw [div, if_neg hq] at h
  exact fix_eq_error h

theorem fix_overflow (hfits : Fits c.prec q) (h : 10 ^ (c.emax + 1) ≤ |q|)
    (hrange : c.emin ≤ c.emax + 1) : c.fix q = .error .overflow := by
  have hlow : 10 ^ c.emin ≤ |q| := (zpow_le_zpow_right₀ (by norm_num) hrange).trans h
  simp only [fix, toGrid_unit (Or.inl hlow), hfits.roundSig_eq, if_pos h]

end Context

end GiPricing.Decimal
