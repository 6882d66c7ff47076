import GiPricing.Text.Char
import Mathlib.Data.Int.Log
import Mathlib.Data.Rat.Floor
import Mathlib.Tactic

/-! # Decimal arithmetic

Exact decimals are rationals. An operation in a context of `prec` significant digits rounds
its exact result half to even; a number that fits the context is left as it is.
-/

namespace GiPricing

inductive RoundingMode | halfEven | halfUp | ceiling | floor | down
  deriving DecidableEq, Repr

namespace Decimal

/-- The integer a mode rounds to. `halfUp` rounds a tie away from zero. -/
def roundInt (mode : RoundingMode) (q : ℚ) : ℤ := match mode with
  | .floor => ⌊q⌋
  | .ceiling => ⌈q⌉
  | .down => if 0 ≤ q then ⌊q⌋ else ⌈q⌉
  | .halfUp => if 0 ≤ q then ⌊q + 1 / 2⌋ else ⌈q - 1 / 2⌉
  | .halfEven =>
    let rest := q - ⌊q⌋
    if rest < 1 / 2 then ⌊q⌋
    else if 1 / 2 < rest then ⌊q⌋ + 1
    else if ⌊q⌋ % 2 = 0 then ⌊q⌋ else ⌊q⌋ + 1

/-- The unit of the last of `prec` significant digits. -/
def unit (prec : ℕ) (q : ℚ) : ℚ := (10 : ℚ) ^ (Int.log 10 |q| - prec + 1)

/-- A number rounded half to even to `prec` significant digits. -/
def roundSig (prec : ℕ) (q : ℚ) : ℚ := roundInt .halfEven (q / unit prec q) * unit prec q

/-- At most `prec` significant digits. -/
def Fits (prec : ℕ) (q : ℚ) : Prop := ∃ (m : ℤ) (e : ℤ), |m| < 10 ^ prec ∧ q = m * (10 : ℚ) ^ e

variable {mode : RoundingMode} {prec : ℕ} {q : ℚ}

@[simp] theorem roundInt_intCast (mode : RoundingMode) (n : ℤ) : roundInt mode n = n := by
  cases mode with
  | floor => simp [roundInt]
  | ceiling => simp [roundInt]
  | down => simp [roundInt]
  | halfUp =>
    simp only [roundInt]
    split_ifs
    · rw [Int.floor_eq_iff]; constructor <;> linarith
    · rw [Int.ceil_eq_iff]; constructor <;> linarith
  | halfEven => simp [roundInt]

theorem abs_roundInt_sub_lt (mode : RoundingMode) (q : ℚ) : |(roundInt mode q : ℚ) - q| < 1 := by
  have hf := Int.floor_le q
  have hf' := Int.lt_floor_add_one q
  have hc := Int.le_ceil q
  have hc' := Int.ceil_lt_add_one q
  cases mode with
  | floor => simp only [roundInt]; rw [abs_lt]; constructor <;> linarith
  | ceiling => simp only [roundInt]; rw [abs_lt]; constructor <;> linarith
  | down =>
    simp only [roundInt]
    split_ifs <;> rw [abs_lt] <;> constructor <;> linarith
  | halfUp =>
    simp only [roundInt]
    split_ifs
    · have h := Int.floor_le (q + 1 / 2)
      have h' := Int.lt_floor_add_one (q + 1 / 2)
      rw [abs_lt]; constructor <;> linarith
    · have h := Int.le_ceil (q - 1 / 2)
      have h' := Int.ceil_lt_add_one (q - 1 / 2)
      rw [abs_lt]; constructor <;> linarith
  | halfEven =>
    simp only [roundInt]
    split_ifs <;> rw [abs_lt] <;> push_cast <;> constructor <;> linarith

theorem unit_pos (prec : ℕ) (q : ℚ) : 0 < unit prec q := zpow_pos (by norm_num) _

theorem roundInt_nonneg (h : 0 ≤ q) : 0 ≤ roundInt .halfEven q := by
  have hf : 0 ≤ ⌊q⌋ := Int.floor_nonneg.mpr h
  simp only [roundInt]
  split_ifs <;> omega

theorem roundSig_nonneg (h : 0 ≤ q) : 0 ≤ roundSig prec q :=
  mul_nonneg (by exact_mod_cast roundInt_nonneg (div_nonneg h (unit_pos prec q).le))
    (unit_pos prec q).le

@[simp] theorem roundSig_zero (prec : ℕ) : roundSig prec 0 = 0 := by
  have h : roundInt .halfEven (0 : ℚ) = 0 := by simpa using roundInt_intCast .halfEven 0
  simp [roundSig, h]

/-- A number with at most `prec` significant digits is left as it is. -/
theorem Fits.roundSig_eq (h : Fits prec q) : roundSig prec q = q := by
  obtain ⟨m, e, hm, rfl⟩ := h
  rcases eq_or_ne m 0 with rfl | hm0
  · simp
  have hq : 0 < |(m : ℚ) * (10 : ℚ) ^ e| := by positivity
  have hlog : Int.log 10 |(m : ℚ) * (10 : ℚ) ^ e| < e + prec := by
    have he : (0 : ℚ) < 10 ^ e := zpow_pos (by norm_num) e
    rw [← Int.lt_zpow_iff_log_lt (by norm_num) hq, abs_mul, abs_of_pos he, add_comm, Nat.cast_ofNat,
      zpow_add₀ (by norm_num)]
    have hm' : |(m : ℚ)| < 10 ^ prec := by exact_mod_cast hm
    rw [zpow_natCast]
    exact mul_lt_mul_of_pos_right hm' he
  set L := Int.log 10 |(m : ℚ) * (10 : ℚ) ^ e|
  obtain ⟨k, hk⟩ := Int.eq_ofNat_of_zero_le (show 0 ≤ e - (L - prec + 1) by omega)
  have hdiv : (m : ℚ) * (10 : ℚ) ^ e / unit prec ((m : ℚ) * (10 : ℚ) ^ e) =
      ((m * 10 ^ k : ℤ) : ℚ) := by
    rw [unit, mul_div_assoc, ← zpow_sub₀ (by norm_num), hk]
    push_cast; rfl
  rw [roundSig, hdiv, roundInt_intCast, ← hdiv, div_mul_cancel₀ _ (unit_pos _ _).ne']

theorem fits_div (m : ℤ) (s : ℕ) (h : |m| < 10 ^ prec) : Fits prec ((m : ℚ) / 10 ^ s) :=
  ⟨m, -s, h, by rw [zpow_neg, zpow_natCast, div_eq_mul_inv]⟩

/-! ## Numeric texts -/

/-- A value of the decimal type: a number, an infinity or not a number. -/
inductive Number
  | finite (q : ℚ)
  | infinite (negative : Bool)
  | nan (signalling : Bool)
  deriving DecidableEq, Repr

def Number.toRat? : Number → Option ℚ
  | finite q => some q
  | infinite _ | nan _ => none

/-- An optional sign at the head of a text, with the rest. -/
def takeSign : List Char → Bool × List Char
  | '-' :: t => (true, t)
  | '+' :: t => (false, t)
  | t => (false, t)

/-- `(E[-+]?[0-9]+)?` up to the end of a text. -/
def parseExponent : List Char → Option ℤ
  | [] => some 0
  | c :: t =>
    let (negative, ds) := takeSign t
    if (c = 'e' || c = 'E') && !ds.isEmpty && ds.all isDigit then
      some (if negative then -(digitsValue ds : ℤ) else digitsValue ds)
    else none

/-- `[0-9]*(\.[0-9]*)?` with at least one digit, then an exponent. -/
def parseMagnitude (cs : List Char) : Option ℚ :=
  let whole := cs.takeWhile isDigit
  let (fraction, rest) := match cs.dropWhile isDigit with
    | '.' :: t => (t.takeWhile isDigit, t.dropWhile isDigit)
    | t => ([], t)
  if whole.isEmpty && fraction.isEmpty then none
  else (parseExponent rest).map fun e =>
    (digitsValue (whole ++ fraction) : ℚ) / 10 ^ fraction.length * 10 ^ e

/-- The words for the special values, any case. -/
def parseWord (cs : List Char) : Option (Bool → Number) :=
  let word := String.ofList (cs.map Char.toLower)
  if word = "inf" ∨ word = "infinity" then some .infinite
  else if "nan".toList.isPrefixOf word.toList && (word.toList.drop 3).all isDigit then
    some fun _ => .nan false
  else if "snan".toList.isPrefixOf word.toList && (word.toList.drop 4).all isDigit then
    some fun _ => .nan true
  else none

/-- `Decimal(text)`: surrounding space and underscores are ignored; `none` is a refusal. -/
def parse (s : String) : Option Number :=
  let stripped := ((s.toList.dropWhile isSpace).reverse.dropWhile isSpace).reverse
  let (negative, cs) := takeSign (stripped.filter (· ≠ '_'))
  match parseMagnitude cs with
  | some q => some (.finite (if negative then -q else q))
  | none => (parseWord cs).map (· negative)

example : parse " -12.50e1 " = some (.finite (-125)) := by with_unfolding_all decide

end Decimal

end GiPricing
