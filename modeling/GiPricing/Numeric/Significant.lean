import GiPricing.Numeric.Grid

/-! # Significant digits

Rounding to a number of significant digits: which numbers a number is rounded to, that the order is
kept, and that a rounded number has no more digits than it was rounded to.
-/

namespace GiPricing.Decimal

variable {prec : ℕ} {p q x y : ℚ} {e : ℤ}

/-! ## Whole numbers -/

theorem roundInt_halfEven_mono (h : p ≤ q) :
    roundInt .halfEven p ≤ roundInt .halfEven q := by
  by_contra hlt
  have hgap : (roundInt .halfEven q : ℚ) + 1 ≤ roundInt .halfEven p := by
    exact_mod_cast Int.add_one_le_iff.mpr (not_le.mp hlt)
  have hp := (abs_le.mp (abs_sub_roundInt_halfEven_le p)).1
  have hq := (abs_le.mp (abs_sub_roundInt_halfEven_le q)).2
  -- Both are then the tie between the two whole numbers, so they are rounded alike.
  obtain rfl : p = q := by linarith
  exact hlt le_rfl

/-! ## Powers of ten -/

theorem unit_eq (prec : ℕ) (q : ℚ) : (10 : ℚ) ^ (Int.log 10 |q| + 1) = 10 ^ prec * unit prec q := by
  rw [unit, ← zpow_natCast, ← zpow_add₀ (by norm_num)]
  congr 1
  ring

theorem roundSig_neg (prec : ℕ) (q : ℚ) : roundSig prec (-q) = -roundSig prec q := by
  have hunit : unit prec (-q) = unit prec q := by rw [unit, abs_neg, unit]
  rw [roundSig, roundSig, hunit, neg_div, roundInt_neg (Or.inr (Or.inr rfl))]
  push_cast
  ring

theorem roundSig_le (prec : ℕ) (hq : 0 < q) : roundSig prec q ≤ 10 ^ (Int.log 10 q + 1) := by
  have hunit := unit_pos prec q
  have hlog : Int.log 10 |q| = Int.log 10 q := by rw [abs_of_pos hq]
  have hlt : q < 10 ^ prec * unit prec q := by
    rw [← unit_eq, hlog]
    exact_mod_cast Int.lt_zpow_succ_log_self (b := 10) (by norm_num) q
  have hround : roundInt .halfEven (q / unit prec q) ≤ 10 ^ prec := by
    apply roundInt_halfEven_le
    rw [div_le_iff₀ hunit]
    push_cast
    exact hlt.le
  rw [← hlog, unit_eq, roundSig]
  exact mul_le_mul_of_nonneg_right (by exact_mod_cast hround) hunit.le

theorem le_roundSig (hprec : 0 < prec) (hq : 0 < q) : 10 ^ Int.log 10 q ≤ roundSig prec q := by
  have hunit := unit_pos prec q
  have hten : (10 : ℚ) ^ Int.log 10 q = 10 ^ (prec - 1) * unit prec q := by
    rw [unit, abs_of_pos hq, ← zpow_natCast, ← zpow_add₀ (by norm_num)]
    congr 1
    omega
  have hle : (10 : ℚ) ^ Int.log 10 q ≤ q := by
    exact_mod_cast Int.zpow_log_le_self (b := 10) (by norm_num) hq
  have hround : 10 ^ (prec - 1) ≤ roundInt .halfEven (q / unit prec q) := by
    apply le_roundInt_halfEven
    rw [le_div_iff₀ hunit]
    push_cast
    rwa [← hten]
  rw [hten, roundSig]
  exact mul_le_mul_of_nonneg_right (by exact_mod_cast hround) hunit.le

/-! ## The order -/

theorem roundSig_mono_pos (hprec : 0 < prec) (hp : 0 < p) (h : p ≤ q) :
    roundSig prec p ≤ roundSig prec q := by
  have hq := hp.trans_le h
  rcases (Int.log_mono_right (b := 10) hp h).lt_or_eq with hlt | heq
  · calc roundSig prec p ≤ 10 ^ (Int.log 10 p + 1) := roundSig_le prec hp
      _ ≤ 10 ^ Int.log 10 q := zpow_le_zpow_right₀ (by norm_num) hlt
      _ ≤ roundSig prec q := le_roundSig hprec hq
  · have hunit : unit prec p = unit prec q := by
      rw [unit, unit, abs_of_pos hp, abs_of_pos hq, heq]
    have hround := roundInt_halfEven_mono (div_le_div_of_nonneg_right h (unit_pos prec q).le)
    rw [roundSig, roundSig, hunit]
    exact mul_le_mul_of_nonneg_right (by exact_mod_cast hround) (unit_pos prec q).le

/-- Rounding keeps the order. -/
theorem roundSig_mono (hprec : 0 < prec) (h : p ≤ q) : roundSig prec p ≤ roundSig prec q := by
  rcases lt_or_ge 0 p with hp | hp
  · exact roundSig_mono_pos hprec hp h
  rcases lt_or_ge q 0 with hq | hq
  · have := roundSig_mono_pos hprec (neg_pos.mpr hq) (neg_le_neg h)
    rw [roundSig_neg, roundSig_neg] at this
    exact neg_le_neg_iff.mp this
  · have hle : roundSig prec p ≤ 0 := by
      have hneg : 0 ≤ roundSig prec (-p) := roundSig_nonneg (neg_nonneg.mpr hp)
      rw [roundSig_neg] at hneg
      exact neg_nonneg.mp hneg
    exact hle.trans (roundSig_nonneg hq)

/-! ## The digits of a rounded number -/

theorem Fits.neg (h : Fits prec q) : Fits prec (-q) := by
  obtain ⟨m, e, hm, rfl⟩ := h
  exact ⟨-m, e, by rwa [abs_neg], by push_cast; ring⟩

/-- A rounded number has no more digits than it was rounded to. -/
theorem fits_roundSig (hprec : 0 < prec) (q : ℚ) : Fits prec (roundSig prec q) := by
  have hpos : ∀ r : ℚ, 0 < r → Fits prec (roundSig prec r) := by
    intro r hr
    have hunit := unit_pos prec r
    have hle := roundSig_le prec hr
    rcases hle.lt_or_eq with hlt | heq
    · refine ⟨roundInt .halfEven (r / unit prec r), Int.log 10 |r| - prec + 1, ?_, rfl⟩
      have hten : (10 : ℚ) ^ (Int.log 10 r + 1) = 10 ^ prec * unit prec r := by
        rw [← unit_eq, abs_of_pos hr]
      rw [hten, roundSig] at hlt
      have hm := lt_of_mul_lt_mul_right hlt hunit.le
      rw [abs_of_nonneg (roundInt_nonneg (div_nonneg hr.le hunit.le))]
      exact_mod_cast hm
    · refine ⟨1, Int.log 10 r + 1, ?_, by rw [heq]; simp⟩
      rw [abs_one]
      exact one_lt_pow₀ (by norm_num) hprec.ne'
  rcases lt_trichotomy 0 q with hq | rfl | hq
  · exact hpos q hq
  · rw [roundSig_zero]
    exact ⟨0, 0, by simp, by simp⟩
  · have := (hpos (-q) (neg_pos.mpr hq)).neg
    rwa [roundSig_neg, neg_neg] at this

theorem roundSig_eq_self_iff (hprec : 0 < prec) : roundSig prec q = q ↔ Fits prec q :=
  ⟨fun h => h ▸ fits_roundSig hprec q, Fits.roundSig_eq⟩

/-- What a number is rounded to: a whole number of units that is less than half a unit away, or
half a unit and even. -/
theorem roundSig_eq_iff : roundSig prec q = y ↔ ∃ m : ℤ, y = m * unit prec q ∧
    (|q - y| < unit prec q / 2 ∨ |q - y| = unit prec q / 2 ∧ m % 2 = 0) := by
  have hunit := unit_pos prec q
  have hscale : ∀ m : ℤ, |q / unit prec q - m| * unit prec q = |q - m * unit prec q| := by
    intro m
    rw [← abs_of_pos hunit, ← abs_mul, abs_of_pos hunit, sub_mul, div_mul_cancel₀ _ hunit.ne']
  have hhalf : ∀ m : ℤ, roundInt .halfEven (q / unit prec q) = m ↔
      |q - m * unit prec q| < unit prec q / 2 ∨
        |q - m * unit prec q| = unit prec q / 2 ∧ m % 2 = 0 := by
    intro m
    have hdiv : unit prec q / 2 = 1 / 2 * unit prec q := by ring
    rw [roundInt_halfEven_eq_iff, ← hscale, hdiv, mul_lt_mul_iff_left₀ hunit,
      mul_left_inj' hunit.ne']
  constructor
  · rintro rfl
    exact ⟨_, rfl, (hhalf _).mp rfl⟩
  · rintro ⟨m, rfl, h⟩
    rw [roundSig, (hhalf m).mpr h]

/-! ## Decimal places -/

/-- A whole number of units of a decimal place. -/
def OnGrid (e : ℤ) (q : ℚ) : Prop := ∃ m : ℤ, q = m * (10 : ℚ) ^ e

theorem onGrid_zero (e : ℤ) : OnGrid e 0 := ⟨0, by simp⟩

theorem OnGrid.mono {f : ℤ} (h : OnGrid e q) (hf : f ≤ e) : OnGrid f q := by
  obtain ⟨m, rfl⟩ := h
  obtain ⟨k, hk⟩ := Int.eq_ofNat_of_zero_le (sub_nonneg.mpr hf)
  refine ⟨m * 10 ^ k, ?_⟩
  push_cast
  rw [mul_assoc, ← zpow_natCast, ← zpow_add₀ (by norm_num), ← hk, sub_add_cancel]

theorem OnGrid.add (hp : OnGrid e p) (hq : OnGrid e q) : OnGrid e (p + q) := by
  obtain ⟨m, rfl⟩ := hp
  obtain ⟨n, rfl⟩ := hq
  exact ⟨m + n, by push_cast; ring⟩

theorem OnGrid.neg (h : OnGrid e q) : OnGrid e (-q) := by
  obtain ⟨m, rfl⟩ := h
  exact ⟨-m, by push_cast; ring⟩

theorem OnGrid.abs (h : OnGrid e q) : OnGrid e |q| := by
  rcases abs_choice q with ha | ha <;> rw [ha]
  · exact h
  · exact h.neg

theorem OnGrid.sub (hp : OnGrid e p) (hq : OnGrid e q) : OnGrid e (p - q) := by
  rw [sub_eq_add_neg]
  exact hp.add hq.neg

theorem OnGrid.mul {f : ℤ} (hp : OnGrid e p) (hq : OnGrid f q) : OnGrid (e + f) (p * q) := by
  obtain ⟨m, rfl⟩ := hp
  obtain ⟨n, rfl⟩ := hq
  exact ⟨m * n, by push_cast; rw [zpow_add₀ (by norm_num)]; ring⟩

theorem OnGrid.fits {n : ℕ} (h : OnGrid e q) (hq : |q| < 10 ^ (e + n)) : Fits n q := by
  obtain ⟨m, rfl⟩ := h
  have hten : (0 : ℚ) < 10 ^ e := zpow_pos (by norm_num) e
  refine ⟨m, e, ?_, rfl⟩
  rw [abs_mul, abs_of_pos hten, zpow_add₀ (by norm_num), mul_comm, zpow_natCast] at hq
  exact_mod_cast lt_of_mul_lt_mul_left hq hten.le

theorem Fits.onGrid (h : Fits prec q) : OnGrid (Int.log 10 |q| - prec + 1) q :=
  ⟨_, h.roundSig_eq.symm⟩

theorem fits_abs (h : Fits prec q) : Fits prec |q| := by
  rcases abs_choice q with ha | ha <;> rw [ha]
  · exact h
  · exact h.neg

theorem Fits.mono {n : ℕ} (h : Fits prec q) (hn : prec ≤ n) : Fits n q := by
  obtain ⟨m, e, hm, rfl⟩ := h
  exact ⟨m, e, hm.trans_le (pow_le_pow_right₀ (by norm_num) hn), rfl⟩

theorem Fits.mul {n : ℕ} (hp : Fits prec p) (hq : Fits n q) : Fits (prec + n) (p * q) := by
  obtain ⟨k, e, hk, rfl⟩ := hp
  obtain ⟨m, f, hm, rfl⟩ := hq
  refine ⟨k * m, e + f, ?_, ?_⟩
  · rw [abs_mul, pow_add]
    exact mul_lt_mul'' hk hm (abs_nonneg _) (abs_nonneg _)
  · push_cast
    rw [zpow_add₀ (by norm_num)]
    ring

theorem fits_zero_iff : Fits 0 q ↔ q = 0 := by
  constructor
  · rintro ⟨m, e, hm, rfl⟩
    rw [pow_zero, Int.abs_lt_one_iff] at hm
    simp [hm]
  · rintro rfl
    exact ⟨0, 0, by simp, by simp⟩

theorem fits_zpow (e : ℤ) : Fits 1 ((10 : ℚ) ^ e) := ⟨1, e, by norm_num, by simp⟩

theorem Fits.mul_zpow (h : Fits prec q) (e : ℤ) : Fits prec (q * 10 ^ e) := by
  obtain ⟨m, f, hm, rfl⟩ := h
  exact ⟨m, f + e, hm, by rw [zpow_add₀ (by norm_num)]; ring⟩

/-! ## How far a number is rounded -/

theorem zpow_log_le (hq : q ≠ 0) : (10 : ℚ) ^ Int.log 10 |q| ≤ |q| := by
  exact_mod_cast Int.zpow_log_le_self (b := 10) (by norm_num) (abs_pos.mpr hq)

theorem lt_zpow_log (q : ℚ) : |q| < 10 ^ (Int.log 10 |q| + 1) := by
  exact_mod_cast Int.lt_zpow_succ_log_self (b := 10) (by norm_num) |q|

theorem log_eq (hlo : 10 ^ e ≤ |q|) (hhi : |q| < 10 ^ (e + 1)) : Int.log 10 |q| = e := by
  have hq : 0 < |q| := (zpow_pos (by norm_num) e).trans_le hlo
  apply le_antisymm
  · exact Int.lt_add_one_iff.mp ((Int.lt_zpow_iff_log_lt (by norm_num) hq).mp (by exact_mod_cast hhi))
  · exact (Int.zpow_le_iff_le_log (by norm_num) hq).mp (by exact_mod_cast hlo)

theorem unit_le (hq : q ≠ 0) : unit prec q ≤ 10 / 10 ^ prec * |q| := by
  have h := zpow_log_le hq
  have hunit : unit prec q = 10 / 10 ^ prec * 10 ^ Int.log 10 |q| := by
    rw [unit, zpow_add₀ (by norm_num), zpow_sub₀ (by norm_num), zpow_natCast]
    ring
  rw [hunit]
  exact mul_le_mul_of_nonneg_left h (by positivity)

theorem abs_sub_roundSig_le (prec : ℕ) (q : ℚ) : |q - roundSig prec q| ≤ unit prec q / 2 := by
  obtain ⟨m, _, h⟩ := roundSig_eq_iff.mp (Eq.refl (roundSig prec q))
  exact h.elim le_of_lt fun h => h.1.le

theorem abs_sub_roundSig_le_mul (prec : ℕ) (q : ℚ) :
    |q - roundSig prec q| ≤ 5 / 10 ^ prec * |q| := by
  rcases eq_or_ne q 0 with rfl | hq
  · simp
  · have h := abs_sub_roundSig_le prec q
    have hu : unit prec q ≤ 10 / 10 ^ prec * |q| := unit_le hq
    calc |q - roundSig prec q| ≤ unit prec q / 2 := h
      _ ≤ 10 / 10 ^ prec * |q| / 2 := by linarith
      _ = 5 / 10 ^ prec * |q| := by ring

theorem roundSig_abs (prec : ℕ) (q : ℚ) : roundSig prec |q| = |roundSig prec q| := by
  rcases le_total 0 q with h | h
  · rw [abs_of_nonneg h, abs_of_nonneg (roundSig_nonneg h)]
  · have hneg : 0 ≤ roundSig prec (-q) := roundSig_nonneg (neg_nonneg.mpr h)
    rw [abs_of_nonpos h, roundSig_neg, abs_of_nonpos (by rw [roundSig_neg] at hneg; linarith)]

theorem zpow_le_abs_roundSig (hprec : 0 < prec) (h : 10 ^ e ≤ |q|) :
    10 ^ e ≤ |roundSig prec q| := by
  rw [← roundSig_abs, ← ((fits_zpow e).mono hprec).roundSig_eq]
  exact roundSig_mono hprec h

theorem roundSig_ne_zero (hprec : 0 < prec) (hq : q ≠ 0) : roundSig prec q ≠ 0 :=
  abs_pos.mp ((zpow_pos (by norm_num) _).trans_le (zpow_le_abs_roundSig hprec (zpow_log_le hq)))

theorem abs_roundSig_le_zpow (hprec : 0 < prec) (h : |q| ≤ 10 ^ e) :
    |roundSig prec q| ≤ 10 ^ e := by
  rw [← roundSig_abs, ← ((fits_zpow e).mono hprec).roundSig_eq]
  exact roundSig_mono hprec h

theorem Fits.le_sub (h : Fits prec x) :
    |x| ≤ (1 - 1 / 10 ^ prec) * 10 ^ (Int.log 10 |x| + 1) := by
  obtain ⟨m, hm⟩ := h.onGrid
  have hunit := unit_pos prec x
  have hten := unit_eq prec x
  have hx : |x| = |(m : ℚ)| * unit prec x := by
    calc |x| = |m * unit prec x| := congrArg abs hm
      _ = |(m : ℚ)| * unit prec x := by rw [abs_mul, abs_of_pos hunit]
  have hlt : |(m : ℚ)| < 10 ^ prec := by
    have := lt_zpow_log x
    rw [hten, hx] at this
    exact lt_of_mul_lt_mul_right this hunit.le
  have hle : |(m : ℚ)| ≤ 10 ^ prec - 1 := by
    have hm' : |m| < 10 ^ prec := by exact_mod_cast hlt
    exact_mod_cast Int.le_sub_one_of_lt hm'
  calc |x| = |(m : ℚ)| * unit prec x := hx
    _ ≤ (10 ^ prec - 1) * unit prec x := mul_le_mul_of_nonneg_right hle hunit.le
    _ = (1 - 1 / 10 ^ prec) * (10 ^ prec * unit prec x) := by field_simp
    _ = (1 - 1 / 10 ^ prec) * 10 ^ (Int.log 10 |x| + 1) := by rw [hten]

theorem roundSig_eq_of_near (hq : q ≠ 0) (h : Fits prec x)
    (hnear : |q - x| ≤ 1 / 100 / 10 ^ prec * |q|) : roundSig prec q = x := by
  have hpow : (0 : ℚ) < 10 ^ prec := by positivity
  have hpos := abs_pos.mpr hq
  have hlog : Int.log 10 |q| ≤ Int.log 10 |x| := by
    by_contra hlt
    have hten : (10 : ℚ) ^ (Int.log 10 |x| + 1) ≤ |q| :=
      (zpow_le_zpow_right₀ (by norm_num) (by omega)).trans (zpow_log_le hq)
    have hone : (0 : ℚ) ≤ 1 - 1 / 10 ^ prec := by
      rw [sub_nonneg, div_le_one hpow]
      exact one_le_pow₀ (by norm_num)
    have hx := h.le_sub.trans (mul_le_mul_of_nonneg_left hten hone)
    have hsub := abs_sub_abs_le_abs_sub q x
    have hsmall : 0 < 1 / 10 ^ prec * |q| := by positivity
    have : 1 / 100 / 10 ^ prec * |q| = 1 / 100 * (1 / 10 ^ prec * |q|) := by ring
    linarith
  obtain ⟨m, hm⟩ := h.onGrid.mono (show Int.log 10 |q| - prec + 1 ≤ _ by omega)
  refine roundSig_eq_iff.mpr ⟨m, hm, Or.inl ?_⟩
  have hlt := lt_zpow_log q
  rw [unit_eq prec q] at hlt
  have hunit := unit_pos prec q
  calc |q - x| ≤ 1 / 100 / 10 ^ prec * |q| := hnear
    _ ≤ 1 / 100 / 10 ^ prec * (10 ^ prec * unit prec q) :=
        mul_le_mul_of_nonneg_left hlt.le (by positivity)
    _ = unit prec q / 100 := by field_simp
    _ < unit prec q / 2 := by linarith

end GiPricing.Decimal
