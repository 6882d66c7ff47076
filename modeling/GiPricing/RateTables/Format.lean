import GiPricing.RateTables.Operations
import GiPricing.Score.Positional

/-! # The text of a computed value

A decimal has many spellings and one canonical text, which both writers of a stored decimal give.
-/

namespace GiPricing

namespace Decimal

/-! ## The places of a text -/

/-- A fraction of a power of ten. -/
def Terminating (q : ℚ) : Prop := ∃ (m : ℤ) (k : ℕ), q = m / 10 ^ k

section Places

variable {q : ℚ} {m : ℤ} {k j : ℕ}

theorem den_dvd_of_eq (h : q = m / 10 ^ j) : q.den ∣ 10 ^ j := by
  have hdvd : ((Rat.divInt m (10 ^ j : ℕ)).den : ℤ) ∣ (10 ^ j : ℕ) := Rat.den_dvd m _
  have hq : Rat.divInt m (10 ^ j : ℕ) = q := by
    rw [h, Rat.divInt_eq_div]
    norm_cast
  rw [hq] at hdvd
  exact_mod_cast hdvd

theorem mul_den_of_eq (h : q = m / 10 ^ k) : m * q.den = q.num * 10 ^ k := by
  have hden : (q.den : ℚ) ≠ 0 := by exact_mod_cast q.den_ne_zero
  have hq : (m : ℚ) / 10 ^ k = q.num / q.den := by rw [← h, Rat.num_div_den]
  rw [div_eq_div_iff (by positivity) hden] at hq
  exact_mod_cast hq

theorem le_of_den_dvd (h : q = m / 10 ^ k) (hm : k = 0 ∨ ¬ (10 : ℤ) ∣ m) (hj : q.den ∣ 10 ^ j) :
    k ≤ j := by
  rcases hm with rfl | hm
  · omega
  by_contra hlt
  obtain ⟨r, hr⟩ := hj
  obtain ⟨i, hi, rfl⟩ : ∃ i, 0 < i ∧ k = j + i := ⟨k - j, by omega, by omega⟩
  -- `m` is `q` times `10 ^ k`, and `10 ^ j` makes `q` whole already.
  have hmul : m * 10 ^ j = q.num * r * 10 ^ i * 10 ^ j := by
    have hr' : (10 : ℤ) ^ j = q.den * r := by exact_mod_cast hr
    calc m * 10 ^ j = (m * q.den) * r := by rw [hr']; ring
      _ = q.num * 10 ^ (j + i) * r := by rw [mul_den_of_eq h]
      _ = q.num * r * 10 ^ i * 10 ^ j := by ring
  have hm' : m = q.num * r * 10 ^ i := mul_right_cancel₀ (by positivity) hmul
  exact hm (hm' ▸ Dvd.dvd.mul_left (dvd_pow_self 10 hi.ne') _)

theorem le_log2_den (h : q = m / 10 ^ k) (hm : k = 0 ∨ ¬ (10 : ℤ) ∣ m) : k ≤ q.den.log2 := by
  rcases hm with rfl | hm
  · omega
  have hmul : m.natAbs * q.den = q.num.natAbs * 10 ^ k := by
    have hcast := congrArg Int.natAbs (mul_den_of_eq h)
    simpa [Int.natAbs_mul, Int.natAbs_pow] using hcast
  have hprime : ¬ 2 ∣ m.natAbs ∨ ¬ 5 ∣ m.natAbs := by
    by_contra hboth
    rw [not_or, not_not, not_not] at hboth
    omega
  have hle : ∀ p, p.Prime → p ∣ 10 → ¬ p ∣ m.natAbs → p ^ k ≤ q.den := by
    intro p hp hten hm
    have hdvd : p ^ k ∣ m.natAbs * q.den := by
      rw [hmul]
      exact Dvd.dvd.mul_left (pow_dvd_pow_of_dvd hten k) _
    have hcop : Nat.Coprime (p ^ k) m.natAbs := Nat.Coprime.pow_left k (hp.coprime_iff_not_dvd.mpr hm)
    exact Nat.le_of_dvd q.den_pos (hcop.dvd_of_dvd_mul_left hdvd)
  rw [Nat.le_log2 q.den_ne_zero]
  rcases hprime with h2 | h5
  · exact hle 2 Nat.prime_two (by norm_num) h2
  · exact (Nat.pow_le_pow_left (by norm_num) k).trans (hle 5 Nat.prime_five (by norm_num) h5)

end Places

end Decimal

namespace RateTables

open Failure Decimal

section Places

variable {q : ℚ} {m : ℤ} {k : ℕ}

theorem fractionDigits_eq (h : q = m / 10 ^ k) (hm : k = 0 ∨ ¬ (10 : ℤ) ∣ m) :
    fractionDigits q = k := by
  have hfind : (List.range (q.den.log2 + 1)).find? (fun k => q.den ∣ 10 ^ k) = some k := by
    rw [List.find?_range_eq_some]
    refine ⟨by simpa using den_dvd_of_eq h, ?_, fun j hj => ?_⟩
    · have hlog := le_log2_den h hm
      rw [List.mem_range]
      omega
    · have hnot : ¬ q.den ∣ 10 ^ j := fun hdvd => absurd (le_of_den_dvd h hm hdvd) (not_le.mpr hj)
      simpa using hnot
  rw [fractionDigits, hfind]
  rfl

theorem fixedPoint_eq (h : q = m / 10 ^ k) (hm : k = 0 ∨ ¬ (10 : ℤ) ∣ m) :
    fixedPoint q = fixedText m k := by
  have hmul : m.natAbs * q.den = q.num.natAbs * 10 ^ k := by
    have hcast := congrArg Int.natAbs (mul_den_of_eq h)
    simpa [Int.natAbs_mul, Int.natAbs_pow] using hcast
  have hdigits : q.num.natAbs * 10 ^ k / q.den = m.natAbs := by
    rw [← hmul, Nat.mul_div_cancel _ q.den_pos]
  have hsign : q < 0 ↔ m < 0 := by
    rw [h, div_lt_iff₀ (by positivity), zero_mul]
    exact_mod_cast Iff.rfl
  simp only [fixedPoint, fractionDigits_eq h hm, hdigits, hsign, fixedText, Nat.toList_repr]

theorem exists_lowest (h : Terminating q) :
    ∃ (m : ℤ) (k : ℕ), q = m / 10 ^ k ∧ (k = 0 ∨ ¬ (10 : ℤ) ∣ m) := by
  obtain ⟨m, k, hq⟩ := h
  induction k generalizing m with
  | zero => exact ⟨m, 0, hq, Or.inl rfl⟩
  | succ k ih =>
    by_cases hm : (10 : ℤ) ∣ m
    · obtain ⟨n, rfl⟩ := hm
      refine ih n ?_
      rw [hq]
      push_cast
      rw [pow_succ, mul_comm (10 : ℚ), mul_div_mul_right _ _ (by norm_num)]
    · exact ⟨m, k + 1, hq, Or.inr hm⟩

theorem parse_fixedPoint (h : Terminating q) : parse (fixedPoint q) = some (.finite q) := by
  obtain ⟨m, k, hq, hm⟩ := exists_lowest h
  rw [fixedPoint_eq hq hm, parse_fixedText, ← hq]

theorem fixedPoint_injective {q' : ℚ} (h : Terminating q) (h' : Terminating q')
    (htext : fixedPoint q = fixedPoint q') : q = q' := by
  have hparse := parse_fixedPoint h
  rw [htext, parse_fixedPoint h'] at hparse
  simpa using hparse.symm

end Places

end RateTables

namespace Decimal

/-! ## The parts of a decimal -/

/-- A finite decimal: `as_tuple()`, with its digits as one number. -/
structure Finite where
  negative : Bool
  coefficient : ℕ
  exponent : ℤ
  deriving DecidableEq, Repr

namespace Finite

def signed (d : Finite) : ℤ := if d.negative then -d.coefficient else d.coefficient

def toRat (d : Finite) : ℚ := d.signed * (10 : ℚ) ^ d.exponent

/-- `len(value.as_tuple().digits)`; a zero has one digit. -/
def digits (d : Finite) : ℕ := (Nat.toDigits 10 d.coefficient).length

/-- `adjusted()`: the exponent of the first digit. -/
def adjusted (d : Finite) : ℤ := d.exponent + d.digits - 1

/-- The trailing zeros of a coefficient, moved into the exponent. -/
def stripZeros : ℕ → ℕ → ℤ → ℕ × ℤ
  | 0, coefficient, exponent => (coefficient, exponent)
  | fuel + 1, coefficient, exponent =>
    if coefficient % 10 = 0 then stripZeros fuel (coefficient / 10) (exponent + 1)
    else (coefficient, exponent)

/-- `normalize()` of a number that is not zero, in a context that does not round it. -/
def normalize (d : Finite) : Finite :=
  let stripped := stripZeros d.digits d.coefficient d.exponent
  ⟨d.negative, stripped.1, stripped.2⟩

/-- `format(value, "f")` of a number that is not zero: the places below the point are those the
exponent asks for. -/
def positional (d : Finite) : String :=
  fixedText (d.signed * 10 ^ d.exponent.toNat) (-d.exponent).toNat

/-- `_format_value`: the bound on the exponent comes first, that of a zero as well. -/
def formatValue (d : Finite) : Except RateTables.Refusal String := do
  Failure.ensure (-RateTables.maxPositionalExponent ≤ d.adjusted ∧
    d.adjusted ≤ RateTables.maxPositionalExponent) .cellUnparseable
  return if d.coefficient = 0 then "0" else d.normalize.positional

end Finite

/-- A text of decimals is exact and canonical: every number of an admitted exponent has one, it is
read back as the number, numbers share it exactly when they are equal, and what it is read as is
written as it again. -/
structure CanonicalText (bound : ℤ) (write : Finite → Option String) : Prop where
  writes : ∀ d, |d.adjusted| ≤ bound → ∃ text, write d = some text
  exact : ∀ d text, write d = some text → parse text = some (.finite d.toRat)
  shared : ∀ d d' text text', write d = some text → write d' = some text' →
    (text = text' ↔ d.toRat = d'.toRat)
  fixed : ∀ d text, write d = some text → ∀ d', parse text = some (.finite d'.toRat) →
    |d'.adjusted| ≤ bound → write d' = some text

/-! ## What normalising keeps -/

namespace Finite

variable {d : Finite}

theorem signed_eq_zero : d.signed = 0 ↔ d.coefficient = 0 := by
  rw [signed]
  split_ifs <;> simp

theorem toRat_eq_zero : d.toRat = 0 ↔ d.coefficient = 0 := by
  have hpow : (10 : ℚ) ^ d.exponent ≠ 0 := zpow_ne_zero _ (by norm_num)
  rw [toRat, mul_eq_zero, or_iff_left hpow, Int.cast_eq_zero, signed_eq_zero]

theorem terminating_toRat (d : Finite) : Terminating d.toRat := by
  refine ⟨d.signed * 10 ^ d.exponent.toNat, (-d.exponent).toNat, ?_⟩
  rw [toRat, eq_div_iff (by positivity)]
  push_cast
  rw [mul_assoc, ← zpow_natCast, ← zpow_natCast, ← zpow_add₀ (by norm_num)]
  congr 2
  omega

theorem stripZeros_spec {fuel c : ℕ} {e : ℤ} (hc : c ≠ 0) (hfuel : c < 10 ^ fuel) :
    ((stripZeros fuel c e).1 : ℚ) * 10 ^ (stripZeros fuel c e).2 = c * 10 ^ e ∧
      (stripZeros fuel c e).1 % 10 ≠ 0 ∧
      (stripZeros fuel c e).2 + (Nat.toDigits 10 (stripZeros fuel c e).1).length =
        e + (Nat.toDigits 10 c).length := by
  induction fuel generalizing c e with
  | zero => omega
  | succ fuel ih =>
    rw [stripZeros]
    split_ifs with hmod
    · have hc10 : 10 ≤ c := by omega
      have hdiv : c / 10 < 10 ^ fuel := by
        rw [pow_succ] at hfuel
        omega
      obtain ⟨hvalue, hlast, hdigits⟩ := ih (e := e + 1) (by omega) hdiv
      refine ⟨?_, hlast, ?_⟩
      · have hcast : (c : ℚ) = ((c / 10 : ℕ) : ℚ) * 10 := by
          exact_mod_cast (Nat.div_mul_cancel (Nat.dvd_of_mod_eq_zero hmod)).symm
        rw [hvalue, hcast, zpow_add_one₀ (by norm_num)]
        ring
      · rw [hdigits, Nat.toDigits_of_base_le (by omega) hc10, List.length_append,
          List.length_singleton]
        push_cast
        ring
    · exact ⟨rfl, hmod, rfl⟩

theorem lt_pow_digits (d : Finite) : d.coefficient < 10 ^ d.digits :=
  (Nat.length_toDigits_le_iff (by omega) Nat.length_toDigits_pos).mp le_rfl

theorem normalize_spec (hd : d.coefficient ≠ 0) :
    d.normalize.toRat = d.toRat ∧ ¬ (10 : ℤ) ∣ d.normalize.signed ∧
      d.normalize.adjusted = d.adjusted := by
  obtain ⟨hvalue, hlast, hdigits⟩ := stripZeros_spec (e := d.exponent) hd d.lt_pow_digits
  refine ⟨?_, ?_, ?_⟩
  · rw [toRat, toRat, signed, signed, normalize]
    split_ifs
    · push_cast
      rw [neg_mul, neg_mul, hvalue]
    · exact_mod_cast hvalue
  · simp only [signed, normalize]
    split_ifs <;> omega
  · rw [adjusted, adjusted, digits, normalize]
    exact congrArg (· - 1) hdigits

theorem positional_normalize (hd : d.coefficient ≠ 0) :
    d.normalize.positional = RateTables.fixedPoint d.toRat := by
  obtain ⟨hvalue, hlast, -⟩ := normalize_spec hd
  set n := d.normalize
  rw [positional, ← hvalue]
  symm
  apply RateTables.fixedPoint_eq
  · rw [toRat, eq_div_iff (by positivity)]
    push_cast
    rw [mul_assoc, ← zpow_natCast, ← zpow_natCast, ← zpow_add₀ (by norm_num)]
    congr 2
    omega
  · rcases le_or_gt 0 n.exponent with h | h
    · exact Or.inl (by omega)
    · right
      rwa [show n.exponent.toNat = 0 by omega, pow_zero, mul_one]

theorem adjusted_eq_log (hd : d.coefficient ≠ 0) : d.adjusted = Int.log 10 |d.toRat| := by
  have hten : (0 : ℚ) < 10 ^ d.exponent := zpow_pos (by norm_num) _
  have habs : |d.toRat| = d.coefficient * 10 ^ d.exponent := by
    rw [toRat, abs_mul, abs_of_pos hten, signed]
    split_ifs <;> simp
  have hpos : 0 < |d.toRat| := abs_pos.mpr (toRat_eq_zero.not.mpr hd)
  have hdigits : 0 < d.digits := Nat.length_toDigits_pos
  have hlower : 10 ^ (d.digits - 1) ≤ d.coefficient := by
    by_contra hlt
    rcases Nat.eq_zero_or_pos (d.digits - 1) with h0 | h0
    · rw [h0] at hlt
      omega
    · have hle := (Nat.length_toDigits_le_iff (b := 10) (by omega) h0).mpr (not_le.mp hlt)
      rw [← digits] at hle
      omega
  apply le_antisymm
  · rw [← Int.zpow_le_iff_le_log (by norm_num) hpos, habs, adjusted,
      show d.exponent + d.digits - 1 = ((d.digits - 1 : ℕ) : ℤ) + d.exponent by omega,
      Nat.cast_ofNat, zpow_add₀ (by norm_num), zpow_natCast]
    exact mul_le_mul_of_nonneg_right (by exact_mod_cast hlower) hten.le
  · rw [← Int.lt_add_one_iff, ← Int.lt_zpow_iff_log_lt (by norm_num) hpos, habs, adjusted,
      show d.exponent + d.digits - 1 + 1 = (d.digits : ℤ) + d.exponent by omega,
      Nat.cast_ofNat, zpow_add₀ (by norm_num), zpow_natCast]
    exact mul_lt_mul_of_pos_right (by exact_mod_cast d.lt_pow_digits) hten

end Finite

theorem canonicalText_of {bound : ℤ} {write : Finite → Option String}
    (hadmitted : ∀ d, |d.adjusted| ≤ bound → write d = some (RateTables.fixedPoint d.toRat))
    (honly : ∀ d text, write d = some text → text = RateTables.fixedPoint d.toRat) :
    CanonicalText bound write where
  writes d hd := ⟨_, hadmitted d hd⟩
  exact d text h := by
    rw [honly d text h]
    exact RateTables.parse_fixedPoint d.terminating_toRat
  shared d d' text text' h h' := by
    rw [honly d text h, honly d' text' h']
    constructor
    · exact RateTables.fixedPoint_injective d.terminating_toRat d'.terminating_toRat
    · intro he
      rw [he]
  fixed d text h d' hparse hd' := by
    rw [honly d text h, RateTables.parse_fixedPoint d.terminating_toRat, Option.some.injEq,
      Number.finite.injEq] at hparse
    rw [hadmitted d' hd', honly d text h, hparse]

theorem fixedPoint_zero : RateTables.fixedPoint 0 = "0" := by decide

open RateTables in
theorem Finite.formatValue_eq (d : Finite) : d.formatValue =
    if |d.adjusted| ≤ maxPositionalExponent then .ok (fixedPoint d.toRat)
    else .error .cellUnparseable := by
  have htext : (if d.coefficient = 0 then "0" else d.normalize.positional) =
      fixedPoint d.toRat := by
    split_ifs with hd
    · rw [Finite.toRat_eq_zero.mpr hd, fixedPoint_zero]
    · exact Finite.positional_normalize hd
  rw [Finite.formatValue, htext, Failure.ensure]
  by_cases h : |d.adjusted| ≤ maxPositionalExponent
  · rw [if_pos h, if_pos (abs_le.mp h)]
    rfl
  · rw [if_neg h, if_neg fun hle => h (abs_le.mpr hle)]
    rfl

open RateTables in
/-- A decimal is written as its value is, but for a zero whose exponent is out of bounds. -/
theorem Finite.formatValue_toRat (d : Finite) : d.formatValue =
    if d.coefficient = 0 ∧ maxPositionalExponent < |d.adjusted| then .error .cellUnparseable
    else RateTables.formatValue d.toRat := by
  rw [Finite.formatValue_eq]
  by_cases hd : d.coefficient = 0
  · have hzero : RateTables.formatValue 0 = .ok (fixedPoint 0) := by decide
    rw [Finite.toRat_eq_zero.mpr hd, hzero]
    simp only [hd, true_and, ← not_le, ite_not]
  · have hq : d.toRat ≠ 0 := Finite.toRat_eq_zero.not.mpr hd
    have hzero : ¬ (d.coefficient = 0 ∧ maxPositionalExponent < |d.adjusted|) := fun h => hd h.1
    rw [if_neg hzero, RateTables.formatValue, ← Finite.adjusted_eq_log hd, if_neg hq]
    simp only [hq, false_or, ← abs_le, Failure.ensure]
    by_cases hle : |d.adjusted| ≤ maxPositionalExponent
    · rw [if_pos hle, if_pos hle]
      rfl
    · rw [if_neg hle, if_neg hle]
      rfl

end Decimal

/-! ## The canonical decimal of the schema -/

namespace Money

open Failure Decimal RateTables

/-- Why a decimal is not written: a digit would be lost, or its exponent is out of bounds. -/
inductive Unwritten
  | inexact
  | magnitude
  deriving DecidableEq

def emax : ℤ := 999999

/-- `normalize` in a context of as many digits as the number has: it signals where the first digit
is above the largest exponent, or a digit lies below the smallest one. -/
def normalizeExact (d : Finite) : Except Unwritten Finite :=
  if emax < d.adjusted ∨ d.adjusted < -emax ∧ d.normalize.exponent < -emax - d.digits + 1 then
    .error .inexact
  else .ok d.normalize

/-- `_positional`. -/
def positional (d : Finite) : Except Unwritten String := do
  ensure (-maxPositionalExponent ≤ d.adjusted ∧ d.adjusted ≤ maxPositionalExponent) .magnitude
  return d.positional

/-- `_canonical_decimal`. -/
def canonicalDecimal (d : Finite) : Except Unwritten String :=
  if d.coefficient = 0 then .ok "0"
  else do
    let exact ← normalizeExact d
    positional exact

theorem canonicalDecimal_eq_ok {d : Finite} {text : String} (h : canonicalDecimal d = .ok text) :
    text = fixedPoint d.toRat := by
  rw [canonicalDecimal] at h
  split_ifs at h with hd
  · cases h
    rw [Finite.toRat_eq_zero.mpr hd, fixedPoint_zero]
  · simp only [positional, normalizeExact, bind_eq_ok, ensure_eq_ok, exists_const, pure_eq_ok] at h
    obtain ⟨exact, hexact, -, rfl⟩ := h
    split_ifs at hexact
    cases hexact
    exact Finite.positional_normalize hd

theorem canonicalDecimal_of_le {d : Finite} (h : |d.adjusted| ≤ maxPositionalExponent) :
    canonicalDecimal d = .ok (fixedPoint d.toRat) := by
  rw [abs_le] at h
  rw [canonicalDecimal]
  split_ifs with hd
  · rw [Finite.toRat_eq_zero.mpr hd, fixedPoint_zero]
  · obtain ⟨-, -, hadjusted⟩ := Finite.normalize_spec hd
    have hexact : normalizeExact d = .ok d.normalize := by
      rw [normalizeExact, if_neg]
      simp only [emax, maxPositionalExponent] at h ⊢
      omega
    simp only [hexact, positional, bind_eq_ok, ensure_eq_ok, exists_const, pure_eq_ok]
    exact ⟨_, rfl, hadjusted ▸ h, Finite.positional_normalize hd⟩

/-- The text of a computed cell and the canonical text of the schema are each exact and canonical
over the decimals of up to 308 places either way. -/
theorem texts_canonical :
    CanonicalText maxPositionalExponent (fun d => d.formatValue.toOption) ∧
      CanonicalText maxPositionalExponent fun d => (canonicalDecimal d).toOption := by
  constructor
  · apply canonicalText_of
    · intro d hd
      rw [Finite.formatValue_eq, if_pos hd]
      rfl
    · intro d text h
      rw [Finite.formatValue_eq] at h
      split_ifs at h
      · exact (Option.some.inj h).symm
      · cases h
  · apply canonicalText_of
    · intro d hd
      rw [canonicalDecimal_of_le hd]
      rfl
    · intro d text h
      cases hok : canonicalDecimal d with
      | error e =>
        rw [hok] at h
        cases h
      | ok text' =>
        rw [hok] at h
        cases h
        exact canonicalDecimal_eq_ok hok

end Money

end GiPricing
