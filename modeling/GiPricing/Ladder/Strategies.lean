import GiPricing.Ladder.Reconcile
import GiPricing.Numeric.Significant

/-! # What is recovered

Which of the four strategies an operation was recovered by, and what the earlier ones had missed.
-/

namespace GiPricing

open Decimal

variable {p c q v : ℚ} {n : ℕ}

/-! ## Quotients that terminate -/

theorem stripPrime_dvd (prime : ℕ) : ∀ k n, stripPrime prime k n ∣ n
  | 0, _ => dvd_rfl
  | k + 1, n => by
    rw [stripPrime]
    split_ifs with h
    · exact (stripPrime_dvd prime k _).trans (Nat.div_dvd_of_dvd (Nat.dvd_of_mod_eq_zero h))
    · exact dvd_rfl

theorem not_dvd_stripPrime {prime : ℕ} (hprime : 1 < prime) :
    ∀ {k n}, 0 < n → n ≤ k → ¬ prime ∣ stripPrime prime k n
  | 0, _, hn, hk => absurd hk (by omega)
  | k + 1, n, hn, hk => by
    rw [stripPrime]
    split_ifs with h
    · have hdvd := Nat.dvd_of_mod_eq_zero h
      have hlt : n / prime < n := Nat.div_lt_self hn hprime
      exact not_dvd_stripPrime hprime (Nat.div_pos (Nat.le_of_dvd hn hdvd) (by omega)) (by omega)
    · exact fun hdvd => h (Nat.mod_eq_zero_of_dvd hdvd)

theorem Decimal.Fits.den_dvd (h : Fits n q) : ∃ k, q.den ∣ 10 ^ k := by
  obtain ⟨m, e, _, rfl⟩ := h
  rcases le_total 0 e with he | he
  · obtain ⟨k, rfl⟩ := Int.eq_ofNat_of_zero_le he
    refine ⟨0, ?_⟩
    have hint : (m : ℚ) * 10 ^ (k : ℤ) = ((m * 10 ^ k : ℤ) : ℚ) := by push_cast; simp
    rw [hint, Rat.den_intCast]
    exact one_dvd _
  · obtain ⟨k, hk⟩ := Int.eq_ofNat_of_zero_le (neg_nonneg.mpr he)
    refine ⟨k, ?_⟩
    have hdiv : (m : ℚ) * 10 ^ e = Rat.divInt m (10 ^ k : ℤ) := by
      rw [Rat.divInt_eq_div, show e = -(k : ℤ) by omega, zpow_neg, div_eq_mul_inv]
      push_cast
      simp
    rw [hdiv]
    exact_mod_cast Rat.den_dvd m (10 ^ k)

theorem stripped_eq_one (h : Fits n q) : stripPrime 5 q.den (stripPrime 2 q.den q.den) = 1 := by
  obtain ⟨k, hk⟩ := h.den_dvd
  have hdvd := stripPrime_dvd 2 q.den q.den
  have hdvd' := stripPrime_dvd 5 q.den (stripPrime 2 q.den q.den)
  have htwo : ¬ 2 ∣ stripPrime 5 q.den (stripPrime 2 q.den q.den) := fun h =>
    not_dvd_stripPrime (by norm_num) q.den_pos le_rfl (h.trans hdvd')
  have hfive : ¬ 5 ∣ stripPrime 5 q.den (stripPrime 2 q.den q.den) :=
    not_dvd_stripPrime (by norm_num) (Nat.pos_of_dvd_of_pos hdvd q.den_pos)
      (Nat.le_of_dvd q.den_pos hdvd)
  have hcop : Nat.Coprime (stripPrime 5 q.den (stripPrime 2 q.den q.den)) (2 * 5) :=
    Nat.Coprime.mul_right ((Nat.Prime.coprime_iff_not_dvd Nat.prime_two).mpr htwo).symm
      ((Nat.Prime.coprime_iff_not_dvd Nat.prime_five).mpr hfive).symm
  exact (hcop.pow_right k).eq_one_of_dvd (hdvd'.trans (hdvd.trans hk))

open Classical in
/-- The quotient is found wherever it fits the context. -/
theorem terminatingQuotient_eq (hq : q ≠ 0) :
    terminatingQuotient p q = if Fits prec (p / q) then some (p / q) else none := by
  unfold terminatingQuotient
  rw [if_neg hq]
  by_cases h : Fits prec (p / q)
  · simp only [stripped_eq_one h, ne_eq, not_true_eq_false, if_false, h.roundSig_eq, if_true, if_pos h]
  · have hround : roundSig prec (p / q) ≠ p / q := fun he =>
      h ((roundSig_eq_self_iff (by norm_num [prec])).mp he)
    simp only [if_neg h, if_neg hround, ite_self]

/-! ## Short operands -/

theorem find_roundings (full : ℚ) (reproduces : ℚ → Bool) : ∀ count start,
    (((List.range' start count).map (roundSig · full)).find? reproduces = none ∧
      ∀ k, start ≤ k → k < start + count → reproduces (roundSig k full) = false) ∨
    ∃ k, start ≤ k ∧ k < start + count ∧
      ((List.range' start count).map (roundSig · full)).find? reproduces = some (roundSig k full) ∧
      reproduces (roundSig k full) = true ∧
      ∀ j, start ≤ j → j < k → reproduces (roundSig j full) = false
  | 0, start => Or.inl ⟨rfl, fun k h h' => absurd h' (by omega)⟩
  | count + 1, start => by
    rw [List.range'_succ, List.map_cons]
    cases hs : reproduces (roundSig start full) with
    | true =>
      exact Or.inr ⟨start, le_rfl, by omega, List.find?_cons_of_pos hs, hs,
        fun j h h' => absurd h' (by omega)⟩
    | false =>
      rw [List.find?_cons_of_neg (by simp [hs])]
      have hfrom : ∀ j, start ≤ j → start + 1 ≤ j ∨ j = start := by omega
      rcases find_roundings full reproduces count (start + 1) with ⟨hn, h⟩ | ⟨k, hk, hk', hf, hr, h⟩
      · refine Or.inl ⟨hn, fun k hk hk' => ?_⟩
        rcases hfrom k hk with hk | rfl
        · exact h k hk (by omega)
        · exact hs
      · refine Or.inr ⟨k, by omega, by omega, hf, hr, fun j hj hj' => ?_⟩
        rcases hfrom j hj with hj | rfl
        · exact h j hj hj'
        · exact hs

/-- What a short operand is: the rounding to the fewest digits that reproduces. -/
structure Shortest (full : ℚ) (reproduces : ℚ → Bool) (x : ℚ) : Prop where
  digits : ∃ k, 0 < k ∧ k < maxOperandDigits ∧ x = roundSig k full ∧
    ∀ j, 0 < j → j < k → reproduces (roundSig j full) = false
  reproduces : reproduces x = true

variable {full : ℚ} {reproduces : ℚ → Bool}

theorem shortestOperand_shortest {x : ℚ} (h : shortestOperand full reproduces = some x) :
    Shortest full reproduces x := by
  rcases find_roundings full reproduces (maxOperandDigits - 1) 1 with ⟨hn, _⟩ | ⟨k, hk, hk', hf, hr, hj⟩
  · rw [shortestOperand, hn] at h
    cases h
  · rw [shortestOperand, hf] at h
    obtain rfl := Option.some.inj h
    exact ⟨⟨k, hk, by simpa [maxOperandDigits] using hk', rfl, hj⟩, hr⟩

theorem shortestOperand_none (h : shortestOperand full reproduces = none) {k : ℕ} (hk : 0 < k)
    (hk' : k < maxOperandDigits) : reproduces (roundSig k full) = false := by
  rcases find_roundings full reproduces (maxOperandDigits - 1) 1 with ⟨_, hf⟩ | ⟨j, _, _, hf, _⟩
  · exact hf k hk (by simpa [maxOperandDigits] using hk')
  · rw [shortestOperand, hf] at h
    cases h

/-! ## The four strategies -/

/-- What an operation was recovered by. -/
inductive Origin (p c : ℚ) : LadderOperation → Prop
  | factor (hp : p ≠ 0) (h : Fits prec (c / p)) :
      Origin p c { kind := .multiply, factor := some (c / p) }
  | divisor (hp : p ≠ 0) (hc : c ≠ 0) (hf : ¬ Fits prec (c / p)) (h : Fits prec (p / c)) :
      Origin p c { kind := .divide, divisor := some (p / c) }
  | shortFactor {f : ℚ} (hp : p ≠ 0) (hc : c ≠ 0) (hf : ¬ Fits prec (c / p))
      (h : Shortest (roundSig prec (c / p)) (fun f => withinTolerance (roundSig prec (p * f)) c) f) :
      Origin p c { kind := .multiply, factor := some f }
  | shortDivisor {d : ℚ} (hp : p ≠ 0) (hc : c ≠ 0) (hd : ¬ Fits prec (p / c))
      (h : Shortest (roundSig prec (p / c))
        (fun d => d ≠ 0 && withinTolerance (roundSig prec (p / d)) c) d) :
      Origin p c { kind := .divide, divisor := some d }
  | addition (h : p = 0 ∨ c ≠ 0 ∧ ¬ Fits prec (c / p) ∧ ¬ Fits prec (p / c) ∧
      shortestOperand (roundSig prec (c / p))
        (fun f => withinTolerance (roundSig prec (p * f)) c) = none ∧
      shortestOperand (roundSig prec (p / c))
        (fun d => d ≠ 0 && withinTolerance (roundSig prec (p / d)) c) = none) :
      Origin p c (additionOf p c)

theorem fits_zero (n : ℕ) : Fits n 0 := ⟨0, 0, by simp, by simp⟩

theorem fits_one (hn : 0 < n) : Fits n 1 := ⟨1, 0, by simpa using one_lt_pow₀ (by norm_num) hn.ne', by simp⟩

theorem recoverOperation_origin (p c : ℚ) : Origin p c (recoverOperation p c false) := by
  unfold recoverOperation
  by_cases hp : p = 0
  · simp only [Bool.false_or, decide_eq_true_eq, if_pos hp]
    exact .addition (Or.inl hp)
  simp only [Bool.false_or, decide_eq_true_eq, if_neg hp]
  by_cases hcp : c = p
  · rw [if_pos hcp]
    have hone : c / p = 1 := by rw [hcp, div_self hp]
    rw [← hone]
    exact .factor hp (hone ▸ fits_one (by norm_num [prec]))
  rw [if_neg hcp, terminatingQuotient_eq hp]
  by_cases hf : Fits prec (c / p)
  · rw [if_pos hf]
    exact .factor hp hf
  rw [if_neg hf]
  have hc : c ≠ 0 := by
    rintro rfl
    exact hf (by rw [zero_div]; exact fits_zero _)
  dsimp only
  rw [if_neg hc, terminatingQuotient_eq hc]
  by_cases hd : Fits prec (p / c)
  · rw [if_pos hd]
    exact .divisor hp hc hf hd
  rw [if_neg hd]
  dsimp only
  unfold shortestOperation
  split
  · rename_i f h
    exact .shortFactor hp hc hf (shortestOperand_shortest h)
  · rename_i hnf
    split
    · rename_i d h
      exact .shortDivisor hp hc hd (shortestOperand_shortest h)
    · rename_i hnd
      exact .addition (Or.inr ⟨hc, hf, hd, hnf, hnd⟩)

/-! ## The tolerance -/

theorem tolerance_pos : 0 < tolerance := by norm_num [tolerance]

theorem fits_tolerance : Fits 1 tolerance := ⟨1, -26, by norm_num, by norm_num [tolerance]⟩

theorem fits_sub_of_close (hv : Fits prec v) (hc : Fits 28 c) (hc0 : c ≠ 0)
    (h : |v - c| ≤ 2 * (tolerance * |c|)) : Fits prec (v - c) := by
  have hpos := abs_pos.mpr hc0
  have htol : tolerance ≤ 1 / 100 := by norm_num [tolerance]
  have hmul : tolerance * |c| ≤ 1 / 100 * |c| := mul_le_mul_of_nonneg_right htol hpos.le
  have hlo := zpow_log_le hc0
  have hhi := lt_zpow_log c
  rw [zpow_add_one₀ (by norm_num)] at hhi
  have hvabs : 1 / 10 * |c| ≤ |v| := by
    have := abs_sub_abs_le_abs_sub c v
    rw [abs_sub_comm] at this
    linarith
  have hlog : Int.log 10 |c| - 1 ≤ Int.log 10 |v| := by
    rw [← Int.zpow_le_iff_le_log (by norm_num) (by linarith)]
    rw [Nat.cast_ofNat, zpow_sub_one₀ (by norm_num)]
    linarith
  have hgrid : OnGrid (Int.log 10 |c| - 100) (v - c) := by
    refine (hv.onGrid.mono ?_).sub (hc.onGrid.mono ?_)
    · simp only [prec]
      omega
    · omega
  apply hgrid.fits
  simp only [prec, Nat.cast_ofNat, sub_add_cancel]
  linarith

theorem withinTolerance_iff (hv : Fits prec v) (hc : Fits 28 c) (hc0 : c ≠ 0) :
    withinTolerance v c = true ↔ |v - c| ≤ tolerance * |c| := by
  have hprec : 0 < prec := by norm_num [prec]
  have hbound : roundSig prec (tolerance * roundSig prec |c|) = tolerance * |c| := by
    rw [((fits_abs hc).mono (by norm_num [prec])).roundSig_eq]
    exact ((fits_tolerance.mul (fits_abs hc)).mono (by norm_num [prec])).roundSig_eq
  have htwo : roundSig prec (2 * (tolerance * |c|)) = 2 * (tolerance * |c|) := by
    have h2 : Fits 1 2 := ⟨2, 0, by norm_num, by norm_num⟩
    exact ((h2.mul (fits_tolerance.mul (fits_abs hc))).mono (by norm_num [prec])).roundSig_eq
  have hpos : 0 < tolerance * |c| := mul_pos tolerance_pos (abs_pos.mpr hc0)
  have hleft : roundSig prec |roundSig prec (v - c)| = roundSig prec |v - c| := by
    rw [← roundSig_abs, (fits_roundSig hprec _).roundSig_eq]
  simp only [withinTolerance, if_neg hc0, hbound, hleft, decide_eq_true_eq]
  constructor
  · intro h
    have hle : |v - c| ≤ 2 * (tolerance * |c|) := by
      by_contra hlt
      have := roundSig_mono hprec (not_le.mp hlt).le
      rw [htwo] at this
      linarith
    rwa [(fits_abs (fits_sub_of_close hv hc hc0 hle)).roundSig_eq] at h
  · intro h
    rw [← ((fits_tolerance.mul (fits_abs hc)).mono (show 1 + 28 ≤ prec by norm_num [prec])).roundSig_eq]
    exact roundSig_mono hprec h

/-! ## The fewest digits -/

theorem close_of_rounded {x : ℚ} (hv : |x - roundSig prec x| ≤ 5 / 10 ^ prec * |x|)
    (h : |roundSig prec x - c| ≤ tolerance * |c|) : |x - c| ≤ 2 / 10 ^ 26 * |c| := by
  have hsmall : (5 : ℚ) / 10 ^ prec ≤ 1 / 10 ^ 30 := by norm_num [prec]
  have hx := mul_le_mul_of_nonneg_right hsmall (abs_nonneg x)
  have htri := abs_sub_le x (roundSig prec x) c
  have habs := abs_sub_abs_le_abs_sub x c
  simp only [tolerance] at h
  linarith [abs_nonneg c, abs_nonneg x]

theorem near_of_close {r g : ℚ} (hg : |g - r| ≤ 3 / 10 ^ 26 * |r|) :
    |roundSig prec r - g| ≤ 1 / 10 ^ 25 * |roundSig prec r| := by
  have hsmall : (5 : ℚ) / 10 ^ prec ≤ 1 / 10 ^ 30 := by norm_num [prec]
  have hr := (abs_sub_roundSig_le_mul prec r).trans
    (mul_le_mul_of_nonneg_right hsmall (abs_nonneg r))
  have htri := abs_sub_le (roundSig prec r) r g
  have habs := abs_sub_abs_le_abs_sub r (roundSig prec r)
  rw [abs_sub_comm (roundSig prec r) r, abs_sub_comm r g] at htri
  linarith [abs_nonneg r]

theorem factor_near {f : ℚ} (hp : p ≠ 0)
    (h : |roundSig prec (p * f) - c| ≤ tolerance * |c|) :
    |roundSig prec (c / p) - f| ≤ 1 / 10 ^ 25 * |roundSig prec (c / p)| := by
  have hclose := close_of_rounded (abs_sub_roundSig_le_mul prec (p * f)) h
  have hpos := abs_pos.mpr hp
  apply near_of_close
  have hsub : f - c / p = (p * f - c) / p := by field_simp
  rw [hsub, abs_div, abs_div, div_le_iff₀ hpos]
  calc |p * f - c| ≤ 2 / 10 ^ 26 * |c| := hclose
    _ ≤ 3 / 10 ^ 26 * |c| := mul_le_mul_of_nonneg_right (by norm_num) (abs_nonneg c)
    _ = 3 / 10 ^ 26 * (|c| / |p|) * |p| := by field_simp

theorem divisor_near {d : ℚ} (hp : p ≠ 0) (hc : c ≠ 0) (hd : d ≠ 0)
    (h : |roundSig prec (p / d) - c| ≤ tolerance * |c|) :
    |roundSig prec (p / c) - d| ≤ 1 / 10 ^ 25 * |roundSig prec (p / c)| := by
  have hclose := close_of_rounded (abs_sub_roundSig_le_mul prec (p / d)) h
  have hpos := abs_pos.mpr hc
  have hdpos := abs_pos.mpr hd
  apply near_of_close
  have hsub : d - p / c = d * (c - p / d) / c := by field_simp
  have habs := abs_sub_abs_le_abs_sub (p / d) c
  have hbig := abs_sub_abs_le_abs_sub c (p / d)
  rw [abs_sub_comm] at hbig
  have hr : p / c = p / d * d / c := by field_simp
  rw [hsub, hr, abs_div, abs_div, abs_mul, abs_mul, abs_sub_comm, mul_div_assoc', div_le_div_iff_of_pos_right hpos]
  have hle : |p / d - c| ≤ 3 / 10 ^ 26 * |p / d| := by linarith
  calc |d| * |p / d - c| ≤ |d| * (3 / 10 ^ 26 * |p / d|) := mul_le_mul_of_nonneg_left hle hdpos.le
    _ = 3 / 10 ^ 26 * (|p / d| * |d|) := by ring

variable {x y : ℚ}

theorem Shortest.fewest (h : Shortest full reproduces x) (hfull : full ≠ 0) (hy : Fits n y)
    (hnear : |full - y| ≤ 1 / 10 ^ 25 * |full|) (hr : reproduces y = true) : Fits n x := by
  obtain ⟨k, hk, hk', rfl, hfirst⟩ := h.digits
  rcases le_or_gt k n with hn | hn
  · exact (fits_roundSig hk full).mono hn
  exfalso
  have hpos := abs_pos.mpr hfull
  have hn0 : 0 < n := by
    rcases Nat.eq_zero_or_pos n with rfl | h0
    · rw [fits_zero_iff.mp hy, sub_zero] at hnear
      linarith
    · exact h0
  have hten : (1 : ℚ) / 10 ^ 25 ≤ 1 / 100 / 10 ^ n := by
    rw [div_div]
    apply one_div_le_one_div_of_le (by positivity)
    calc (100 : ℚ) * 10 ^ n ≤ 100 * 10 ^ 19 := by
          apply mul_le_mul_of_nonneg_left _ (by norm_num)
          apply pow_le_pow_right₀ (by norm_num)
          simp only [maxOperandDigits] at hk'
          omega
      _ ≤ 10 ^ 25 := by norm_num
  have hround := roundSig_eq_of_near hfull hy
    (hnear.trans (mul_le_mul_of_nonneg_right hten hpos.le))
  have := hfirst n hn0 hn
  rw [hround, hr] at this
  cases this

/-! ## Adding back the difference -/

theorem ten_zpow_sub (e : ℤ) (k : ℕ) : (10 : ℚ) ^ (e - k) = 10 ^ e / 10 ^ k := by
  rw [zpow_sub₀ (by norm_num), zpow_natCast]

theorem log_gap (hp : Fits 28 p) (hc : Fits 28 c) (hle : Int.log 10 |p| ≤ Int.log 10 |c|)
    (h : ¬ Fits prec (c - p)) : Int.log 10 |p| + 72 ≤ Int.log 10 |c| := by
  by_contra hlt
  apply h
  have hgrid : OnGrid (Int.log 10 |p| - 27) (c - p) :=
    (hc.onGrid.mono (by omega)).sub (hp.onGrid.mono (by omega))
  have hten : (10 : ℚ) ^ (Int.log 10 |p| + 1) ≤ 10 ^ (Int.log 10 |c| + 1) :=
    zpow_le_zpow_right₀ (by norm_num) (by omega)
  have hpos : (0 : ℚ) < 10 ^ (Int.log 10 |c| + 1) := zpow_pos (by norm_num) _
  apply hgrid.fits
  calc |c - p| ≤ |c| + |p| := abs_sub c p
    _ < 10 ^ (Int.log 10 |c| + 1) + 10 ^ (Int.log 10 |c| + 1) :=
        add_lt_add (lt_zpow_log c) ((lt_zpow_log p).trans_le hten)
    _ ≤ 10 ^ (Int.log 10 |c| + 1 + 1) := by
        rw [zpow_add_one₀ (by norm_num) (Int.log 10 |c| + 1)]
        linarith
    _ ≤ 10 ^ (Int.log 10 |p| - 27 + (prec : ℕ)) := by
        apply zpow_le_zpow_right₀ (by norm_num)
        simp only [prec]
        omega

theorem Decimal.Fits.add_le (h : Fits 28 c) (hlt : 10 ^ Int.log 10 |c| < |c|) :
    10 ^ Int.log 10 |c| + 10 ^ Int.log 10 |c| / 10 ^ 27 ≤ |c| := by
  obtain ⟨m, hm⟩ := (fits_abs h).onGrid
  rw [abs_abs, show Int.log 10 |c| - (28 : ℕ) + 1 = Int.log 10 |c| - (27 : ℕ) by push_cast; ring,
    ten_zpow_sub] at hm
  have hpos : (0 : ℚ) < 10 ^ Int.log 10 |c| := zpow_pos (by norm_num) _
  generalize (10 : ℚ) ^ Int.log 10 |c| = t at hm hlt hpos ⊢
  have hlt' : (10 : ℚ) ^ 27 < m := by
    rw [hm, mul_div_assoc', lt_div_iff₀ (by positivity), mul_comm] at hlt
    exact lt_of_mul_lt_mul_right hlt hpos.le
  have hle : (10 : ℚ) ^ 27 + 1 ≤ m := by
    have : (10 : ℤ) ^ 27 < m := by exact_mod_cast hlt'
    exact_mod_cast this
  calc t + t / 10 ^ 27 = (10 ^ 27 + 1) * (t / 10 ^ 27) := by field_simp
    _ ≤ m * (t / 10 ^ 27) := mul_le_mul_of_nonneg_right hle (by positivity)
    _ = |c| := hm.symm

/-- The difference from a smaller number adds back, unless the sum is a power of ten. -/
theorem add_back (hp : Fits 28 p) (hc : Fits 28 c) (hle : |p| ≤ |c|)
    (hten : 10 ^ Int.log 10 |c| ≠ |c|) : roundSig prec (p + roundSig prec (c - p)) = c := by
  by_cases h : Fits prec (c - p)
  · rw [h.roundSig_eq, add_sub_cancel, (hc.mono (by norm_num [prec])).roundSig_eq]
  have hp0 : p ≠ 0 := by
    rintro rfl
    exact h (by rw [sub_zero]; exact hc.mono (by norm_num [prec]))
  have hc0 : c ≠ 0 := abs_pos.mp ((abs_pos.mpr hp0).trans_le hle)
  have hgap := log_gap hp hc (Int.log_mono_right (abs_pos.mpr hp0) hle) h
  set L := Int.log 10 |c| with hL
  have ht : (0 : ℚ) < 10 ^ L := zpow_pos (by norm_num) L
  have hone : (10 : ℚ) ^ (L + 1) = 10 * 10 ^ L := by rw [zpow_add_one₀ (by norm_num), mul_comm]
  have hlow := hc.add_le (lt_of_le_of_ne (zpow_log_le hc0) hten)
  have hhigh := hc.le_sub
  rw [← hL, hone] at hhigh
  have hsmall : |p| < 10 ^ L / 10 ^ 71 := by
    rw [← ten_zpow_sub]
    exact (lt_zpow_log p).trans_le (zpow_le_zpow_right₀ (by norm_num) (by push_cast; omega))
  -- A number this close to the sum has its last digit at the same place.
  have hunit : ∀ d : ℚ, |d - c| ≤ 10 ^ L / 10 ^ 71 → unit prec d = 10 ^ L / 10 ^ 99 := by
    intro d hd
    have h1 := abs_sub_abs_le_abs_sub d c
    have h2 := abs_sub_abs_le_abs_sub c d
    rw [abs_sub_comm] at h2
    have hlog : Int.log 10 |d| = L := by
      apply log_eq
      · linarith
      · rw [hone]
        linarith
    rw [unit, hlog, show L - (prec : ℕ) + 1 = L - (99 : ℕ) by simp only [prec]; push_cast; ring,
      ten_zpow_sub]
  have hdiff := hunit (c - p) (by rw [sub_sub_cancel_left, abs_neg]; exact hsmall.le)
  have hround := abs_sub_roundSig_le prec (c - p)
  rw [hdiff] at hround
  have hsum : |p + roundSig prec (c - p) - c| ≤ 10 ^ L / 10 ^ 99 / 2 := by
    rw [abs_sub_comm, ← sub_sub]
    exact hround
  have hback := hunit (p + roundSig prec (c - p)) (by linarith)
  obtain ⟨m, hm⟩ := hc.onGrid
  rw [← hL, show L - (28 : ℕ) + 1 = L - (27 : ℕ) by push_cast; ring, ten_zpow_sub] at hm
  rw [roundSig_eq_iff, hback]
  refine ⟨m * 10 ^ 72, ?_, ?_⟩
  · rw [hm]
    push_cast
    ring
  · rcases hsum.lt_or_eq with hlt | heq
    · exact Or.inl hlt
    · exact Or.inr ⟨heq, by omega⟩

/-- The difference from a greater number does not add back where it is too long. -/
theorem not_add_back (hp : Fits 28 p) (hc : Fits 28 c) (hlt : |c| < |p|)
    (h : ¬ Fits prec (c - p)) : roundSig prec (p + roundSig prec (c - p)) ≠ c := by
  intro hback
  have hp0 : p ≠ 0 := abs_pos.mp ((abs_nonneg c).trans_lt hlt)
  have hc0 : c ≠ 0 := by
    rintro rfl
    exact h (by rw [zero_sub]; exact hp.neg.mono (by norm_num [prec]))
  have hgap := log_gap hc hp (Int.log_mono_right (abs_pos.mpr hc0) hlt.le) fun h' =>
    h (by rw [← neg_sub]; exact h'.neg)
  set M := Int.log 10 |p| with hM
  have ht : (0 : ℚ) < 10 ^ M := zpow_pos (by norm_num) M
  have hone : (10 : ℚ) ^ (M + 1) = 10 * 10 ^ M := by rw [zpow_add_one₀ (by norm_num), mul_comm]
  have hlow := zpow_log_le hp0
  have hhigh := hp.le_sub
  rw [← hM, hone] at hhigh
  rw [← hM] at hlow
  have hsmall : |c| < 10 ^ M / 10 ^ 71 := by
    rw [← ten_zpow_sub]
    exact (lt_zpow_log c).trans_le (zpow_le_zpow_right₀ (by norm_num) (by push_cast; omega))
  have h1 := abs_sub_abs_le_abs_sub p c
  have h2 := abs_sub c p
  rw [abs_sub_comm] at h1
  have hd0 : c - p ≠ 0 := sub_ne_zero.mpr fun he => by rw [he] at hlt; exact lt_irrefl _ hlt
  have hlog : M - 1 ≤ Int.log 10 |c - p| := by
    rw [← Int.zpow_le_iff_le_log (by norm_num) (abs_pos.mpr hd0), Nat.cast_ofNat,
      zpow_sub_one₀ (by norm_num)]
    linarith
  have hround : |c - p - roundSig prec (c - p)| ≤ 1 / 10 ^ 90 * |c - p| :=
    (abs_sub_roundSig_le_mul prec (c - p)).trans
      (mul_le_mul_of_nonneg_right (by norm_num [prec]) (abs_nonneg _))
  have hgrid : OnGrid (M - 100) (p + roundSig prec (c - p)) := by
    refine (hp.onGrid.mono (by omega)).add (OnGrid.mono ⟨_, rfl⟩ ?_)
    simp only [prec]
    omega
  have hsum : |p + roundSig prec (c - p)| < 10 ^ M := by
    have htri := abs_sub c (c - p - roundSig prec (c - p))
    rw [show c - (c - p - roundSig prec (c - p)) = p + roundSig prec (c - p) by ring] at htri
    linarith
  have hfits : Fits prec (p + roundSig prec (c - p)) := by
    apply hgrid.fits
    rwa [show M - 100 + (prec : ℕ) = M by simp only [prec]; push_cast; ring]
  rw [hfits.roundSig_eq] at hback
  apply h
  rw [← eq_sub_iff_add_eq'.mpr hback]
  exact fits_roundSig (by norm_num [prec]) (c - p)

end GiPricing
