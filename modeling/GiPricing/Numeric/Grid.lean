import GiPricing.Numeric.Decimal

/-! # Rounding to a grid

Rounding half to even to the multiples of a unit keeps the order of a number and a multiple. What a
mode makes of the rounded number differs from what it makes of the number only where the number
was carried onto a point at which the mode steps.
-/

namespace GiPricing.Decimal

/-- A whole number. -/
def Whole (q : ℚ) : Prop := ∃ z : ℤ, q = z

/-- A whole number and a half. -/
def Half (q : ℚ) : Prop := ∃ z : ℤ, q = z + 1 / 2

def toGrid (u q : ℚ) : ℚ := roundInt .halfEven (q / u) * u

variable {mode : RoundingMode} {p q u : ℚ} {n z : ℤ} {e : ℤ}

theorem roundInt_halfEven_eq_iff :
    roundInt .halfEven q = n ↔ |q - n| < 1 / 2 ∨ |q - n| = 1 / 2 ∧ n % 2 = 0 := by
  have hf := Int.floor_le q
  have hf' := Int.lt_floor_add_one q
  have hbounds : |q - n| ≤ 1 / 2 → n = ⌊q⌋ ∨ n = ⌊q⌋ + 1 := by
    intro h
    obtain ⟨h1, h2⟩ := abs_le.mp h
    have hlo : (⌊q⌋ : ℚ) < n + 1 := by linarith
    have hhi : (n : ℚ) < ⌊q⌋ + 1 + 1 := by linarith
    norm_cast at hlo hhi
    omega
  constructor
  · rintro rfl
    simp only [roundInt]
    split_ifs with h1 h2 h3
    · exact Or.inl (abs_lt.mpr ⟨by linarith, by linarith⟩)
    · push_cast
      exact Or.inl (abs_lt.mpr ⟨by linarith, by linarith⟩)
    · exact Or.inr ⟨by rw [abs_of_nonneg] <;> linarith, h3⟩
    · push_cast
      exact Or.inr ⟨by rw [abs_of_nonpos] <;> linarith, by omega⟩
  · intro h
    have hle : |q - n| ≤ 1 / 2 := h.elim le_of_lt fun h => h.1.le
    simp only [roundInt]
    rcases hbounds hle with rfl | rfl
    · have habs : |q - ⌊q⌋| = q - ⌊q⌋ := abs_of_nonneg (by linarith)
      rw [habs] at h
      split_ifs with h1 h2 h3
      · rfl
      · rcases h with h | h <;> linarith
      · rfl
      · rcases h with h | h
        · linarith
        · exact absurd h.2 h3
    · push_cast at h
      have habs : |q - (⌊q⌋ + 1)| = ⌊q⌋ + 1 - q := by
        rw [abs_of_nonpos (by linarith)]
        ring
      rw [habs] at h
      split_ifs with h1 h2 h3
      · rcases h with h | h <;> linarith
      · rfl
      · rcases h with h | h
        · linarith
        · omega
      · rfl

theorem abs_sub_roundInt_halfEven_le (q : ℚ) : |q - roundInt .halfEven q| ≤ 1 / 2 := by
  rcases roundInt_halfEven_eq_iff.mp (Eq.refl (roundInt .halfEven q)) with h | h
  · exact h.le
  · exact h.1.le

theorem le_roundInt_halfEven (h : (z : ℚ) ≤ q) : z ≤ roundInt .halfEven q := by
  by_contra hlt
  have hlt' : (roundInt .halfEven q : ℚ) + 1 ≤ z := by exact_mod_cast not_le.mp hlt
  obtain ⟨h1, h2⟩ := abs_le.mp (abs_sub_roundInt_halfEven_le q)
  linarith

theorem roundInt_halfEven_le (h : q ≤ z) : roundInt .halfEven q ≤ z := by
  by_contra hlt
  have hlt' : (z : ℚ) + 1 ≤ roundInt .halfEven q := by exact_mod_cast not_le.mp hlt
  obtain ⟨h1, h2⟩ := abs_le.mp (abs_sub_roundInt_halfEven_le q)
  linarith

theorem roundInt_neg (h : mode = .down ∨ mode = .halfUp ∨ mode = .halfEven) (q : ℚ) :
    roundInt mode (-q) = -roundInt mode q := by
  rcases h with rfl | rfl | rfl
  · simp only [roundInt, Int.floor_neg, Int.ceil_neg, Left.nonneg_neg_iff]
    rcases lt_trichotomy q 0 with h | rfl | h
    · rw [if_pos h.le, if_neg (not_le.mpr h)]
    · simp
    · rw [if_neg (not_le.mpr h), if_pos h.le]
  · simp only [roundInt, Left.nonneg_neg_iff]
    rcases lt_trichotomy q 0 with h | rfl | h
    · rw [if_pos h.le, if_neg (not_le.mpr h), ← Int.floor_neg]
      congr 1
      ring
    · norm_num
    · rw [if_neg (not_le.mpr h), if_pos h.le, ← Int.ceil_neg]
      congr 1
      ring
  · rw [roundInt_halfEven_eq_iff]
    push_cast
    rw [show -q - -(roundInt .halfEven q : ℚ) = -(q - roundInt .halfEven q) by ring, abs_neg]
    rcases roundInt_halfEven_eq_iff.mp (Eq.refl (roundInt .halfEven q)) with h | h
    · exact Or.inl h
    · exact Or.inr ⟨h.1, by omega⟩

theorem toGrid_neg (u q : ℚ) : toGrid u (-q) = -toGrid u q := by
  rw [toGrid, toGrid, neg_div, roundInt_neg (Or.inr (Or.inr rfl))]
  push_cast
  ring

theorem le_toGrid (hu : 0 < u) (h : z * u ≤ q) : z * u ≤ toGrid u q := by
  have hz : z ≤ roundInt .halfEven (q / u) := le_roundInt_halfEven ((le_div_iff₀ hu).mpr h)
  exact mul_le_mul_of_nonneg_right (by exact_mod_cast hz) hu.le

theorem toGrid_le (hu : 0 < u) (h : q ≤ z * u) : toGrid u q ≤ z * u := by
  have hz : roundInt .halfEven (q / u) ≤ z := roundInt_halfEven_le ((div_le_iff₀ hu).mpr h)
  exact mul_le_mul_of_nonneg_right (by exact_mod_cast hz) hu.le

/-! ## Grids of decimal places -/

theorem whole_eq_mul (he : e ≤ 0) (z : ℤ) : ∃ w : ℤ, (z : ℚ) = w * 10 ^ e := by
  obtain ⟨k, hk⟩ := Int.eq_ofNat_of_zero_le (show 0 ≤ -e by omega)
  refine ⟨z * 10 ^ k, ?_⟩
  push_cast
  rw [mul_assoc, ← zpow_natCast, ← zpow_add₀ (by norm_num), show (k : ℤ) + e = 0 by omega]
  simp

theorem half_eq_mul (he : e < 0) (z : ℤ) : ∃ w : ℤ, (z : ℚ) + 1 / 2 = w * 10 ^ e := by
  obtain ⟨w, hw⟩ := whole_eq_mul (show e + 1 ≤ 0 by omega) (2 * z + 1)
  refine ⟨5 * w, ?_⟩
  rw [zpow_add_one₀ (by norm_num)] at hw
  push_cast at hw ⊢
  linarith

theorem le_toGrid_of_le (he : e ≤ 0) (h : (z : ℚ) ≤ q) : (z : ℚ) ≤ toGrid (10 ^ e) q := by
  obtain ⟨w, hw⟩ := whole_eq_mul he z
  rw [hw] at h ⊢
  exact le_toGrid (zpow_pos (by norm_num) e) h

theorem toGrid_le_of_le (he : e ≤ 0) (h : q ≤ z) : toGrid (10 ^ e) q ≤ z := by
  obtain ⟨w, hw⟩ := whole_eq_mul he z
  rw [hw] at h ⊢
  exact toGrid_le (zpow_pos (by norm_num) e) h

theorem half_le_toGrid (he : e < 0) (h : (z : ℚ) + 1 / 2 ≤ q) :
    (z : ℚ) + 1 / 2 ≤ toGrid (10 ^ e) q := by
  obtain ⟨w, hw⟩ := half_eq_mul he z
  rw [hw] at h ⊢
  exact le_toGrid (zpow_pos (by norm_num) e) h

theorem toGrid_le_half (he : e < 0) (h : q ≤ (z : ℚ) + 1 / 2) :
    toGrid (10 ^ e) q ≤ (z : ℚ) + 1 / 2 := by
  obtain ⟨w, hw⟩ := half_eq_mul he z
  rw [hw] at h ⊢
  exact toGrid_le (zpow_pos (by norm_num) e) h

/-! ## A mode after the grid -/

/-- A number `p` is carried to `q`, where the mode steps away from what it makes of `p`. -/
def Slips (p q : ℚ) : RoundingMode → Prop
  | .floor => p < q ∧ Whole q
  | .ceiling => q < p ∧ Whole q
  | .down => |p| < |q| ∧ Whole q
  | .halfUp => |p| < |q| ∧ Half q ∨ |q| < |p| ∧ Half p
  | .halfEven => Half q ∧ (p < q ∧ ⌊q⌋ % 2 = 1 ∨ q < p ∧ ⌊q⌋ % 2 = 0)

theorem floor_toGrid_iff (he : e ≤ 0) :
    ⌊toGrid (10 ^ e) p⌋ = ⌊p⌋ ↔ ¬ (p < toGrid (10 ^ e) p ∧ Whole (toGrid (10 ^ e) p)) := by
  have hlo : (⌊p⌋ : ℚ) ≤ toGrid (10 ^ e) p := le_toGrid_of_le he (Int.floor_le p)
  have hhi : toGrid (10 ^ e) p ≤ (⌊p⌋ + 1 : ℤ) := by
    apply toGrid_le_of_le he
    push_cast
    exact (Int.lt_floor_add_one p).le
  rw [Int.floor_eq_iff]
  constructor
  · rintro ⟨-, hlt⟩ ⟨hp, z, hz⟩
    rw [hz] at hp hlt
    have h1 : ⌊p⌋ < z := Int.floor_lt.mpr hp
    have h2 : z < ⌊p⌋ + 1 := by exact_mod_cast hlt
    omega
  · intro hnot
    refine ⟨hlo, lt_of_le_of_ne (by exact_mod_cast hhi) fun heq => hnot ⟨?_, ⌊p⌋ + 1, ?_⟩⟩
    · rw [heq]
      exact Int.lt_floor_add_one p
    · rw [heq]
      push_cast
      rfl

theorem ceil_toGrid_iff (he : e ≤ 0) :
    ⌈toGrid (10 ^ e) p⌉ = ⌈p⌉ ↔ ¬ (toGrid (10 ^ e) p < p ∧ Whole (toGrid (10 ^ e) p)) := by
  have hfloor := @floor_toGrid_iff (-p) e he
  have hwhole : Whole (-toGrid (10 ^ e) p) ↔ Whole (toGrid (10 ^ e) p) := by
    constructor
    · rintro ⟨z, hz⟩
      exact ⟨-z, by push_cast; linarith⟩
    · rintro ⟨z, hz⟩
      exact ⟨-z, by push_cast; linarith⟩
  rwa [toGrid_neg, Int.floor_neg, Int.floor_neg, neg_inj, neg_lt_neg_iff, hwhole] at hfloor

theorem toGrid_nonneg (hp : 0 ≤ p) : 0 ≤ toGrid (10 ^ e) p :=
  mul_nonneg (by exact_mod_cast roundInt_nonneg (div_nonneg hp (zpow_nonneg (by norm_num) e)))
    (zpow_nonneg (by norm_num) e)

theorem toGrid_zero : toGrid (10 ^ (0 : ℤ)) p = roundInt .halfEven p := by
  rw [toGrid, zpow_zero, div_one, mul_one]

theorem not_half_intCast (n : ℤ) : ¬ Half (n : ℚ) := by
  rintro ⟨z, hz⟩
  have h : (2 * n : ℚ) = 2 * z + 1 := by linarith
  norm_cast at h
  omega

theorem floor_add_half_eq_iff : ⌊q + 1 / 2⌋ = n ↔ (n : ℚ) - 1 / 2 ≤ q ∧ q < n + 1 / 2 := by
  rw [Int.floor_eq_iff]
  constructor
  · rintro ⟨h1, h2⟩
    constructor <;> linarith
  · rintro ⟨h1, h2⟩
    constructor <;> linarith

/-- A tie away from zero, of a number that is not negative. -/
theorem halfUp_toGrid_iff (he : e ≤ 0) (hp : 0 ≤ p) :
    ⌊toGrid (10 ^ e) p + 1 / 2⌋ = ⌊p + 1 / 2⌋ ↔
      ¬ (p < toGrid (10 ^ e) p ∧ Half (toGrid (10 ^ e) p) ∨ toGrid (10 ^ e) p < p ∧ Half p) := by
  set n := ⌊p + 1 / 2⌋ with hn
  obtain ⟨hlo, hhi⟩ := floor_add_half_eq_iff.mp hn.symm
  rw [floor_add_half_eq_iff]
  rcases he.lt_or_eq with he | rfl
  · have hlo' : ((n - 1 : ℤ) : ℚ) + 1 / 2 ≤ toGrid (10 ^ e) p := by
      apply half_le_toGrid he
      push_cast
      linarith
    have hhi' : toGrid (10 ^ e) p ≤ (n : ℚ) + 1 / 2 := toGrid_le_half he hhi.le
    push_cast at hlo'
    constructor
    · rintro ⟨-, hlt⟩ (⟨hup, z, hz⟩ | ⟨hdown, z, hz⟩)
      · rw [hz] at hup hlt
        have h1 : (n : ℚ) < z + 1 := by linarith
        have h2 : (z : ℚ) < n := by linarith
        norm_cast at h1 h2
        omega
      · have hkeep : (z : ℚ) + 1 / 2 ≤ toGrid (10 ^ e) p := half_le_toGrid he hz.ge
        linarith
    · intro hnot
      refine ⟨by linarith, lt_of_le_of_ne hhi' fun heq => hnot (Or.inl ⟨?_, n, heq⟩)⟩
      rw [heq]
      exact hhi
  · rw [toGrid_zero]
    rcases roundInt_halfEven_eq_iff.mp (Eq.refl (roundInt .halfEven p)) with h | ⟨h, -⟩
    · obtain ⟨h1, h2⟩ := abs_lt.mp h
      have hkeep : roundInt .halfEven p = n := by
        have h3 : (n : ℚ) < roundInt .halfEven p + 1 := by linarith
        have h4 : (roundInt .halfEven p : ℚ) < n + 1 := by linarith
        norm_cast at h3 h4
        omega
      rw [hkeep] at h1 h2 ⊢
      refine iff_of_true ⟨by linarith, by linarith⟩ ?_
      rintro (⟨-, hhalf⟩ | ⟨hdown, z, hz⟩)
      · exact not_half_intCast n hhalf
      · have h3 : (z : ℚ) < n := by linarith
        have h4 : (n : ℚ) < z + 1 := by linarith
        norm_cast at h3 h4
        omega
    · constructor
      · rintro ⟨h1, -⟩ (⟨-, hhalf⟩ | ⟨hdown, -⟩)
        · exact not_half_intCast _ hhalf
        · rw [abs_of_pos (by linarith)] at h
          have h3 : (roundInt .halfEven p : ℚ) < n := by linarith
          have h4 : (n : ℚ) < roundInt .halfEven p + 1 := by linarith
          norm_cast at h3 h4
          omega
      · intro hnot
        have hup : p ≤ roundInt .halfEven p := by
          by_contra hdown
          rw [not_le] at hdown
          rw [abs_of_pos (by linarith)] at h
          exact hnot (Or.inr ⟨hdown, roundInt .halfEven p, by linarith⟩)
        rw [abs_of_nonpos (by linarith)] at h
        have h3 : (n : ℚ) < roundInt .halfEven p + 1 := by linarith
        have h4 : (roundInt .halfEven p : ℚ) < n + 1 := by linarith
        have hkeep : roundInt .halfEven p = n := by
          norm_cast at h3 h4
          omega
        rw [hkeep]
        constructor <;> linarith

theorem halfEven_toGrid_iff (he : e ≤ 0) :
    roundInt .halfEven (toGrid (10 ^ e) p) = roundInt .halfEven p ↔
      ¬ Slips p (toGrid (10 ^ e) p) .halfEven := by
  set n := roundInt .halfEven p with hn
  rcases he.lt_or_eq with he | rfl
  · have hspec := roundInt_halfEven_eq_iff.mp hn.symm
    obtain ⟨h1, h2⟩ := abs_le.mp (abs_sub_roundInt_halfEven_le p)
    rw [← hn] at h1 h2
    have hlo : ((n - 1 : ℤ) : ℚ) + 1 / 2 ≤ toGrid (10 ^ e) p := by
      apply half_le_toGrid he
      push_cast
      linarith
    have hhi : toGrid (10 ^ e) p ≤ (n : ℚ) + 1 / 2 := toGrid_le_half he (by linarith)
    push_cast at hlo
    set q := toGrid (10 ^ e) p
    constructor
    · intro hkeep ⟨⟨z, hz⟩, hside⟩
      have hspec' := roundInt_halfEven_eq_iff.mp hkeep
      have hfloor : ⌊q⌋ = z := by
        rw [Int.floor_eq_iff, hz]
        constructor <;> linarith
      rw [hfloor] at hside
      have h3 : (n : ℚ) ≤ z + 1 := by linarith
      have h4 : (z : ℚ) ≤ n := by linarith
      norm_cast at h3 h4
      have heven : n % 2 = 0 := by
        rcases hspec' with h | h
        · obtain ⟨h5, h6⟩ := abs_lt.mp h
          rw [hz] at h5 h6
          have h7 : (z : ℚ) < n := by linarith
          have h8 : (n : ℚ) < z + 1 := by linarith
          norm_cast at h7 h8
          omega
        · exact h.2
      rcases hside with ⟨hlt, hodd⟩ | ⟨hlt, heven'⟩
      · have h5 : (n : ℚ) < z + 1 := by linarith
        norm_cast at h5
        omega
      · have h5 : (z : ℚ) < n := by linarith
        norm_cast at h5
        omega
    · intro hnot
      rw [roundInt_halfEven_eq_iff]
      by_contra hmoved
      rw [not_or, not_lt, not_and] at hmoved
      have habs : |q - n| = 1 / 2 := le_antisymm (abs_le.mpr ⟨by linarith, by linarith⟩) hmoved.1
      have hodd := hmoved.2 habs
      -- The number itself is no tie, for its even neighbour would have been taken.
      have hinside : |p - n| < 1 / 2 := hspec.resolve_right fun h => hodd h.2
      obtain ⟨h3, h4⟩ := abs_lt.mp hinside
      rcases (abs_eq (by norm_num)).mp habs with hq | hq
      · refine hnot ⟨⟨n, by linarith⟩, Or.inl ⟨by linarith, ?_⟩⟩
        have hfloor : ⌊q⌋ = n := by
          rw [Int.floor_eq_iff]
          constructor <;> linarith
        omega
      · refine hnot ⟨⟨n - 1, by push_cast; linarith⟩, Or.inr ⟨by linarith, ?_⟩⟩
        have hfloor : ⌊q⌋ = n - 1 := by
          rw [Int.floor_eq_iff]
          push_cast
          constructor <;> linarith
        omega
  · rw [toGrid_zero, roundInt_intCast]
    exact iff_of_true rfl fun h => not_half_intCast _ h.1

theorem roundInt_toGrid_iff (he : e ≤ 0) (mode : RoundingMode) (p : ℚ) :
    roundInt mode (toGrid (10 ^ e) p) = roundInt mode p ↔ ¬ Slips p (toGrid (10 ^ e) p) mode := by
  have hneg : ∀ q, Whole (-q) ↔ Whole q := fun q =>
    ⟨fun ⟨z, hz⟩ => ⟨-z, by push_cast; linarith⟩, fun ⟨z, hz⟩ => ⟨-z, by push_cast; linarith⟩⟩
  have hhalf : ∀ q, Half (-q) ↔ Half q := fun q =>
    ⟨fun ⟨z, hz⟩ => ⟨-z - 1, by push_cast; linarith⟩, fun ⟨z, hz⟩ => ⟨-z - 1, by push_cast; linarith⟩⟩
  cases mode with
  | floor => exact floor_toGrid_iff he
  | ceiling => exact ceil_toGrid_iff he
  | halfEven => exact halfEven_toGrid_iff he
  | down =>
    wlog hp : 0 ≤ p generalizing p
    · have h := this (-p) (by linarith)
      rwa [toGrid_neg, roundInt_neg (Or.inl rfl), roundInt_neg (Or.inl rfl), neg_inj, Slips, abs_neg,
        abs_neg, hneg] at h
    · have hq : 0 ≤ toGrid (10 ^ e) p := toGrid_nonneg hp
      rw [roundInt, roundInt, if_pos hp, if_pos hq, Slips, abs_of_nonneg hp, abs_of_nonneg hq]
      exact floor_toGrid_iff he
  | halfUp =>
    wlog hp : 0 ≤ p generalizing p
    · have h := this (-p) (by linarith)
      rwa [toGrid_neg, roundInt_neg (Or.inr (Or.inl rfl)), roundInt_neg (Or.inr (Or.inl rfl)), neg_inj,
        Slips, abs_neg, abs_neg, hhalf, hhalf] at h
    · have hq : 0 ≤ toGrid (10 ^ e) p := toGrid_nonneg hp
      rw [roundInt, roundInt, if_pos hp, if_pos hq, Slips, abs_of_nonneg hp, abs_of_nonneg hq]
      exact halfUp_toGrid_iff he hp

end GiPricing.Decimal
