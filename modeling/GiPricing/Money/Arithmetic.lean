import GiPricing.Failure.Except
import GiPricing.Numeric.Grid

/-! # Money arithmetic

A factor applied to an amount in minor units, and an amount in major units converted to minor ones.
Both compute in the standard decimal context before the rounding that is asked for.
-/

namespace GiPricing.Money

open Failure Decimal

inductive MoneyError
  | overflow
  | invalidOperation
  | notExact
  deriving DecidableEq

/-! ## The standard context -/

def prec : ℕ := 28

def maxExponent : ℤ := 999999

def etiny : ℤ := -1000026

def lastPlace (q : ℚ) : ℤ := max (Int.log 10 |q| - prec + 1) etiny

def ambient (q : ℚ) : ℚ := toGrid (10 ^ lastPlace q) q

/-- A result whose exponent is too large is an overflow, which the context traps. -/
def fix (q : ℚ) : Except MoneyError ℚ := do
  ensure (|ambient q| < 10 ^ (maxExponent + 1)) .overflow
  return ambient q

/-! ## The operations -/

/-- `quantize(Decimal(1), rounding=mode)`: a result of more digits than the context has signals. -/
def quantizeUnit (mode : RoundingMode) (q : ℚ) : Except MoneyError ℤ := do
  ensure (|roundInt mode q| < 10 ^ prec) .invalidOperation
  return roundInt mode q

/-- `apply_factor`: the product in the standard context, then the rounding. -/
def applyFactor (amountMinor : ℤ) (factor : ℚ) (mode : RoundingMode) : Except MoneyError ℤ := do
  let product ← fix (amountMinor * factor)
  quantizeUnit mode product

/-- `to_minor`: the amount is scaled in the standard context, and refused where that is not whole. -/
def toMinor (value : Number) (places : ℤ) : Except MoneyError ℤ := match value with
  | .finite q => do
    ensure (|places| ≤ 2 * (maxExponent + prec)) .invalidOperation
    let scaled ← fix (q * 10 ^ places)
    ensure (scaled.den = 1) .notExact
    return scaled.num
  | .infinite _ => .error .overflow
  | .nan false => .error .notExact
  | .nan true => .error .invalidOperation

/-! ## Results of the standard context -/

variable {p q : ℚ} {mode : RoundingMode}

/-- A mode keeps a number on its side of a whole number. -/
theorem le_abs_roundInt {n : ℤ} (h : (n : ℚ) ≤ |q|) : n ≤ |roundInt mode q| := by
  rcases abs_cases q with ⟨habs, hq⟩ | ⟨habs, hq⟩
  · rw [habs] at h
    have hfloor : n ≤ ⌊q⌋ := Int.le_floor.mpr h
    have hceil : ⌊q⌋ ≤ ⌈q⌉ := Int.floor_le_ceil q
    have hround : n ≤ roundInt mode q := by
      cases mode with
      | floor => exact hfloor
      | ceiling => exact hfloor.trans hceil
      | down =>
        rw [roundInt, if_pos hq]
        exact hfloor
      | halfUp =>
        rw [roundInt, if_pos hq]
        exact Int.le_floor.mpr (by linarith)
      | halfEven => exact le_roundInt_halfEven h
    exact hround.trans (le_abs_self _)
  · rw [habs] at h
    have hceil : ⌈q⌉ ≤ -n := Int.ceil_le.mpr (by push_cast; linarith)
    have hfloor : ⌊q⌋ ≤ ⌈q⌉ := Int.floor_le_ceil q
    have hround : roundInt mode q ≤ -n := by
      cases mode with
      | floor => exact hfloor.trans hceil
      | ceiling => exact hceil
      | down =>
        rw [roundInt, if_neg (not_le.mpr hq)]
        exact hceil
      | halfUp =>
        rw [roundInt, if_neg (not_le.mpr hq)]
        exact Int.ceil_le.mpr (by push_cast; linarith)
      | halfEven =>
        apply roundInt_halfEven_le
        push_cast
        linarith
    have hneg := neg_le_abs (roundInt mode q)
    omega

theorem abs_roundInt_le {n : ℤ} (h : |q| ≤ n) : |roundInt mode q| ≤ n := by
  obtain ⟨h1, h2⟩ := abs_le.mp h
  have hlo : -n ≤ ⌊q⌋ := Int.le_floor.mpr (by push_cast; exact h1)
  have hhi : ⌈q⌉ ≤ n := Int.ceil_le.mpr h2
  have hle : ⌊q⌋ ≤ ⌈q⌉ := Int.floor_le_ceil q
  rw [abs_le]
  cases mode with
  | floor => exact ⟨hlo, hle.trans hhi⟩
  | ceiling => exact ⟨hlo.trans hle, hhi⟩
  | down =>
    simp only [roundInt]
    split_ifs
    · exact ⟨hlo, hle.trans hhi⟩
    · exact ⟨hlo.trans hle, hhi⟩
  | halfUp =>
    simp only [roundInt]
    split_ifs with hq
    · refine ⟨hlo.trans (Int.floor_mono (by linarith)), ?_⟩
      have hlt : ⌊q + 1 / 2⌋ < n + 1 := by
        rw [Int.floor_lt]
        push_cast
        linarith
      omega
    · refine ⟨?_, (Int.ceil_mono (by linarith)).trans hhi⟩
      have hlt : -n - 1 < ⌈q - 1 / 2⌉ := by
        rw [Int.lt_ceil]
        push_cast
        linarith
      omega
  | halfEven =>
    refine ⟨le_roundInt_halfEven ?_, roundInt_halfEven_le h2⟩
    push_cast
    exact h1

theorem ambient_neg (q : ℚ) : ambient (-q) = -ambient q := by
  rw [ambient, lastPlace, abs_neg, toGrid_neg]
  rfl

theorem ambient_abs (q : ℚ) : |ambient q| = ambient |q| := by
  have hnonneg : ∀ r : ℚ, 0 ≤ r → |ambient r| = ambient r := fun r hr =>
    abs_of_nonneg (toGrid_nonneg hr)
  rcases abs_cases q with ⟨habs, hq⟩ | ⟨habs, hq⟩
  · rw [habs, hnonneg q hq]
  · rw [habs, ← hnonneg (-q) (by linarith), ambient_neg, abs_neg]

theorem lastPlace_nonpos (h : |q| < 10 ^ prec) : lastPlace q ≤ 0 := by
  rw [lastPlace]
  apply max_le _ (by decide)
  rcases eq_or_ne q 0 with rfl | hq
  · simp [prec]
  · have hlog : Int.log 10 |q| < (prec : ℤ) := by
      rw [← Int.lt_zpow_iff_log_lt (by norm_num) (abs_pos.mpr hq), zpow_natCast]
      exact_mod_cast h
    omega

/-- A number that rounds to less than ten to the 28 stays below it. -/
theorem ambient_lt (h : |q| < 10 ^ prec - 1 / 2) : |ambient q| ≤ (10 ^ prec - 1 : ℤ) := by
  rw [ambient_abs, ambient]
  have hplace : lastPlace |q| ≤ 0 := by
    apply lastPlace_nonpos
    rw [abs_abs]
    linarith
  rcases hplace.lt_or_eq with hlt | heq
  · -- The number has a place below the point, so it is below ten to the 27.
    rcases eq_or_ne q 0 with rfl | hq
    · rw [abs_zero]
      exact (toGrid_le_of_le (z := 0) hplace (by norm_num)).trans (by norm_num [prec])
    · have hlog : Int.log 10 |q| < (prec - 1 : ℤ) := by
        have hle := (le_max_left (Int.log 10 |(|q|)| - prec + 1) etiny).trans_lt hlt
        rw [abs_abs] at hle
        omega
      have hsmall : |q| < 10 ^ (prec - 1 : ℤ) := by
        have := (Int.lt_zpow_iff_log_lt (b := 10) (by norm_num) (abs_pos.mpr hq)).mpr hlog
        exact_mod_cast this
      refine (toGrid_le_of_le (z := 10 ^ 27) hplace ?_).trans (by norm_num [prec])
      push_cast
      have h27 : (10 : ℚ) ^ (prec - 1 : ℤ) = 10 ^ 27 := by norm_num [prec]
      rw [h27] at hsmall
      exact hsmall.le
  · rw [heq, toGrid_zero]
    obtain ⟨h1, -⟩ := abs_le.mp (abs_sub_roundInt_halfEven_le |q|)
    have hlt : (roundInt .halfEven |q| : ℚ) < (10 ^ prec : ℤ) := by
      push_cast
      linarith
    have hlt' : roundInt .halfEven |q| < 10 ^ prec := by exact_mod_cast hlt
    exact_mod_cast Int.le_sub_one_of_lt hlt'

/-- A number that rounds to at least ten to the 28 is taken there. -/
theorem le_ambient (h : 10 ^ prec - 1 / 2 ≤ |q|) : ((10 ^ prec : ℤ) : ℚ) ≤ |ambient q| := by
  rw [ambient_abs, ambient]
  have hpos : 0 < |q| := lt_of_lt_of_le (by norm_num [prec]) h
  rcases lt_or_ge |q| (10 ^ prec) with hlt | hge
  · have hlog : Int.log 10 |q| = 27 := by
      apply le_antisymm
      · have hlt' : Int.log 10 |q| < ((28 : ℕ) : ℤ) := by
          rw [← Int.lt_zpow_iff_log_lt (by norm_num) hpos, zpow_natCast]
          exact_mod_cast hlt
        omega
      · have hle : ((27 : ℕ) : ℤ) ≤ Int.log 10 |q| := by
          rw [← Int.zpow_le_iff_le_log (by norm_num) hpos, zpow_natCast]
          refine le_trans ?_ h
          norm_num [prec]
        exact_mod_cast hle
    have hplace : lastPlace |q| = 0 := by
      rw [lastPlace, abs_abs, hlog]
      decide
    rw [hplace, toGrid_zero]
    have hround : roundInt .halfEven |q| = 10 ^ prec := by
      rw [roundInt_halfEven_eq_iff]
      push_cast
      rcases h.lt_or_eq with h | h
      · left
        rw [abs_lt]
        constructor <;> linarith
      · right
        refine ⟨?_, by decide⟩
        rw [← h, abs_of_nonpos] <;> norm_num
    exact_mod_cast hround.ge
  · have hlog : ((28 : ℕ) : ℤ) ≤ Int.log 10 |q| := by
      rw [← Int.zpow_le_iff_le_log (by norm_num) hpos, zpow_natCast]
      exact_mod_cast hge
    have hplace : lastPlace |q| = Int.log 10 |q| - 27 := by
      rw [lastPlace, abs_abs, max_eq_left]
      · simp only [prec]
        push_cast
        ring
      · simp only [prec, etiny]
        omega
    have hten : (10 : ℚ) ^ Int.log 10 |q| ≤ |q| := by
      exact_mod_cast Int.zpow_log_le_self (b := 10) (by norm_num) hpos
    have hunit : (10 : ℚ) ^ Int.log 10 |q| = ((10 ^ 27 : ℤ) : ℚ) * 10 ^ lastPlace |q| := by
      rw [hplace, show ((10 ^ 27 : ℤ) : ℚ) = 10 ^ (27 : ℤ) by norm_num, ← zpow_add₀ (by norm_num)]
      congr 1
      ring
    have hgrid : (10 : ℚ) ^ Int.log 10 |q| ≤ toGrid (10 ^ lastPlace |q|) |q| := by
      rw [hunit] at hten ⊢
      exact le_toGrid (zpow_pos (by norm_num) _) hten
    refine le_trans ?_ hgrid
    push_cast
    rw [← zpow_natCast]
    exact zpow_le_zpow_right₀ (by norm_num) hlog

/-! ## One rounding -/

theorem applyFactor_eq_ok_iff {amount : ℤ} {factor : ℚ} :
    applyFactor amount factor mode = .ok (roundInt mode (amount * factor)) ↔
      |amount * factor| < 10 ^ prec - 1 / 2 ∧
        ¬ Slips (amount * factor) (ambient (amount * factor)) mode := by
  set p : ℚ := amount * factor
  simp only [applyFactor, fix, quantizeUnit, bind_eq_ok, ensure_eq_ok, exists_const, pure_eq_ok]
  constructor
  · rintro ⟨_, ⟨-, rfl⟩, hdigits, hround⟩
    have hlt : |p| < 10 ^ prec - 1 / 2 := by
      by_contra hge
      have hbig := @le_abs_roundInt _ mode _ (le_ambient (not_lt.mp hge))
      exact absurd hdigits (not_lt.mpr hbig)
    refine ⟨hlt, ?_⟩
    rw [ambient] at hround ⊢
    exact (roundInt_toGrid_iff (lastPlace_nonpos (by linarith)) mode p).mp hround
  · rintro ⟨hlt, hslips⟩
    have hle := ambient_lt hlt
    refine ⟨_, ⟨?_, rfl⟩, ?_, ?_⟩
    · refine lt_of_le_of_lt hle ?_
      have hpow : (10 : ℚ) ^ (prec : ℤ) ≤ 10 ^ (maxExponent + 1) :=
        zpow_le_zpow_right₀ (by norm_num) (by decide)
      rw [zpow_natCast] at hpow
      push_cast
      linarith
    · exact lt_of_le_of_lt (abs_roundInt_le hle) (sub_one_lt _)
    · rw [ambient] at hslips ⊢
      exact (roundInt_toGrid_iff (lastPlace_nonpos (by linarith)) mode p).mpr hslips

/-- The scaled amount is whole, but only after it was rounded to the digits of the context. -/
def RoundedWhole (scaled : ℚ) : Prop :=
  Whole (ambient scaled) ∧ ambient scaled ≠ scaled ∧ |ambient scaled| < 10 ^ (maxExponent + 1)

theorem toMinor_eq_ok_iff {places n : ℤ} : toMinor (.finite q) places = .ok n ↔
    |places| ≤ 2 * (maxExponent + prec) ∧ |ambient (q * 10 ^ places)| < 10 ^ (maxExponent + 1) ∧
      ambient (q * 10 ^ places) = n := by
  simp only [toMinor, fix, bind_eq_ok, ensure_eq_ok, exists_const, pure_eq_ok]
  constructor
  · rintro ⟨hplaces, _, ⟨hrange, rfl⟩, hden, rfl⟩
    exact ⟨hplaces, hrange, (Rat.coe_int_num_of_den_eq_one hden).symm⟩
  · rintro ⟨hplaces, hrange, hn⟩
    exact ⟨hplaces, _, ⟨hrange, rfl⟩, by rw [hn]; rfl, by rw [hn]; rfl⟩

/-- The amount in minor units is what is returned, or nothing is. -/
def ToMinorExact (value : Number) (places : ℤ) : Prop :=
  ∀ n, toMinor value places = .ok n → ∃ q, value = .finite q ∧ (n : ℚ) = q * 10 ^ places

theorem toMinorExact_iff {value : Number} {places : ℤ} : ToMinorExact value places ↔
    ∀ q, value = .finite q → |places| ≤ 2 * (maxExponent + prec) →
      ¬ RoundedWhole (q * 10 ^ places) := by
  constructor
  · rintro h q rfl hplaces ⟨⟨n, hn⟩, hne, hrange⟩
    obtain ⟨q', hq', hvalue⟩ := h n (toMinor_eq_ok_iff.mpr ⟨hplaces, hrange, hn⟩)
    obtain rfl := Number.finite.inj hq'
    exact hne (hn.trans hvalue)
  · intro h n hok
    cases value with
    | finite q =>
      obtain ⟨hplaces, hrange, hn⟩ := toMinor_eq_ok_iff.mp hok
      refine ⟨q, rfl, ?_⟩
      by_contra hne
      exact h q rfl hplaces ⟨⟨n, hn⟩, fun he => hne (hn.symm.trans he), hrange⟩
    | infinite negative => cases hok
    | nan signalling => cases signalling <;> cases hok

/-- A factor is applied with one rounding exactly where the product stays within the context and is
not carried onto a step of the mode, and an amount is converted exactly, or not at all, exactly
where rounding it to the context does not make it whole. -/
theorem rounded_once_iff (amount : ℤ) (factor : ℚ) (mode : RoundingMode) (value : Number)
    (places : ℤ) :
    (applyFactor amount factor mode = .ok (roundInt mode (amount * factor)) ↔
      |amount * factor| < 10 ^ prec - 1 / 2 ∧
        ¬ Slips (amount * factor) (ambient (amount * factor)) mode) ∧
    (ToMinorExact value places ↔
      ∀ q, value = .finite q → |places| ≤ 2 * (maxExponent + prec) →
        ¬ RoundedWhole (q * 10 ^ places)) :=
  ⟨applyFactor_eq_ok_iff, toMinorExact_iff⟩

def nearHalf : ℚ := 49999999999999999999999999999999 / 10 ^ 32

def longAmount : ℚ := 1234567890123456789012345678901 / 10 ^ 2

/-- One unit times the factor is rounded to a half and then up to one, and the long amount loses its
last digits to the context without a refusal. -/
theorem rounded_twice :
    ¬ ((∀ amount factor mode, applyFactor amount factor mode = .ok (roundInt mode (amount * factor))) ∧
      ∀ value places, ToMinorExact value places) := by
  rintro ⟨hfactor, -⟩
  have hone : applyFactor 1 nearHalf .halfUp = .ok 1 := by decide +kernel
  have hzero : roundInt .halfUp (((1 : ℤ) : ℚ) * nearHalf) = 0 := by with_unfolding_all decide
  rw [hfactor 1 nearHalf .halfUp, hzero] at hone
  cases hone

example : toMinor (.finite longAmount) 2 = .ok 1234567890123456789012345679000 := by decide +kernel

end GiPricing.Money
