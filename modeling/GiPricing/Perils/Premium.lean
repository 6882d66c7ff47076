import GiPricing.Money.Relative
import GiPricing.Perils.Compose

/-! # The premium of a Peril Structure

In decimals the premium is the sum of the restored costs, off by a part for each peril and two more,
and it is refused exactly where a cost is negative. Without rounding it is what the arrays give.
-/

namespace GiPricing.Perils

open Accumulate Decimal Failure Money

variable {K : Type} [Field K] [LinearOrder K] {x : ArtifactRef → K} {p : PerilComponent}
  {perils : List PerilComponent}

/-! ## One peril in decimals -/

def costRoundoff : ℚ := 2 * unitRoundoff + unitRoundoff ^ 2

def roundedCost (x : ArtifactRef → ℚ) (p : PerilComponent) : ℚ := match p.method with
  | .frequencySeverity => ambient (modelled x p.frequencyModel * modelled x p.severityModel)
  | .burningCost => modelled x p.burningCostModel

def roundedPremium (x : ArtifactRef → ℚ) (p : PerilComponent) : ℚ :=
  if p.largeLoss.kind = .none then roundedCost x p
  else ambient (roundedCost x p * p.largeLoss.factor)

section Decimals

variable {x : ArtifactRef → ℚ}

theorem FiniteFloat.inRange (f : FiniteFloat) : InRange 324 f.repr := by
  rcases f.range with h | ⟨h1, h2⟩
  · exact Or.inl h
  · exact Or.inr ⟨h1, h2.le.trans (zpow_le_zpow_right₀ (by norm_num) (by norm_num))⟩

theorem Positional.inRange {q : ℚ} (h : Positional q) (hq : 0 < q) : InRange 309 q := by
  obtain ⟨h1, h2⟩ := h
  right
  constructor
  · calc (10 : ℚ) ^ (-(309 : ℕ) : ℤ) ≤ 10 ^ Int.log 10 |q| :=
          zpow_le_zpow_right₀ (by norm_num) (by omega)
      _ ≤ |q| := zpow_log_le hq.ne'
  · calc |q| ≤ 10 ^ (Int.log 10 |q| + 1) := (lt_zpow_log q).le
      _ ≤ 10 ^ ((309 : ℕ) : ℤ) := zpow_le_zpow_right₀ (by norm_num) (by omega)

theorem inRange_one : InRange 309 1 := by
  right
  rw [abs_one]
  exact ⟨zpow_le_one_of_nonpos₀ (by norm_num) (by norm_num),
    one_le_zpow₀ (by norm_num) (by norm_num)⟩

theorem LargeLossTreatment.inRange_factor {t : LargeLossTreatment}
    (hl : ∀ loading ∈ t.restorationLoading, Positional loading)
    (hf : ∀ factor ∈ t.loadingFactor, Positional factor) : InRange 309 t.factor ∧ 0 < t.factor := by
  cases hk : t.kind with
  | none =>
    rw [LargeLossTreatment.factor, hk]
    exact ⟨inRange_one, one_pos⟩
  | separateModel =>
    rw [LargeLossTreatment.factor, hk]
    exact ⟨inRange_one, one_pos⟩
  | capped =>
    have hloading := LargeLossTreatment.loading_of_capped hk
    have hpos : 0 < t.factor := zero_lt_one.trans_le (t.pos.1 _ hloading)
    exact ⟨(hl _ hloading).inRange hpos, hpos⟩
  | flatLoading =>
    have hfactor := LargeLossTreatment.factor_of_flat hk
    have hpos : 0 < t.factor := t.pos.2 _ hfactor
    exact ⟨(hf _ hfactor).inRange hpos, hpos⟩

theorem inRange_modelled (hx : ∀ ref, InRange 324 (x ref)) (ref : Option ArtifactRef) :
    InRange 324 (modelled x ref) := by
  cases ref with
  | none => exact Or.inl rfl
  | some ref => exact hx ref

theorem inRange_expectedCost (hx : ∀ ref, InRange 324 (x ref)) (p : PerilComponent) :
    InRange 648 (expectedCost x p) := by
  cases hm : p.method with
  | frequencySeverity =>
    rw [expectedCost, hm]
    exact (inRange_modelled hx _).mul (inRange_modelled hx _)
  | burningCost =>
    rw [expectedCost, hm]
    exact (inRange_modelled hx _).mono (by norm_num)

theorem roundedCost_off (hx : ∀ ref, InRange 324 (x ref)) (p : PerilComponent) :
    |roundedCost x p - expectedCost x p| ≤ unitRoundoff * |expectedCost x p| := by
  have hrange := inRange_expectedCost hx p
  cases hm : p.method with
  | frequencySeverity =>
    rw [expectedCost, hm] at hrange ⊢
    rw [roundedCost, hm]
    exact hrange.abs_ambient_sub_le (by decide)
  | burningCost =>
    rw [roundedCost, expectedCost, hm]
    simp only [sub_self, abs_zero]
    exact mul_nonneg unitRoundoff_nonneg (abs_nonneg _)

theorem inRange_roundedCost (hx : ∀ ref, InRange 324 (x ref)) (p : PerilComponent) :
    InRange 648 (roundedCost x p) := by
  have hrange := inRange_expectedCost hx p
  cases hm : p.method with
  | frequencySeverity =>
    rw [expectedCost, hm] at hrange
    rw [roundedCost, hm]
    exact hrange.ambient (by decide)
  | burningCost =>
    rw [expectedCost, hm] at hrange
    rw [roundedCost, hm]
    exact hrange

theorem perilCost_decimals (hx : ∀ ref, InRange 324 (x ref)) (p : PerilComponent) :
    perilCost decimals (fun ref => .ok (x ref)) p = .ok (roundedCost x p) := by
  have hrange := inRange_expectedCost hx p
  rw [perilCost_eq fun _ _ => rfl, roundedCost]
  cases hm : p.method with
  | frequencySeverity =>
    rw [expectedCost, hm] at hrange
    simp only [decimals, hrange.fix (by decide)]
    rfl
  | burningCost => rfl

theorem roundedPremium_off (hx : ∀ ref, InRange 324 (x ref))
    (hl : InRange 309 p.largeLoss.factor) :
    |roundedPremium x p - perilPremium x p| ≤ costRoundoff * |perilPremium x p| := by
  have hcost := roundedCost_off hx p
  rw [roundedPremium, perilPremium, Rat.cast_id]
  split_ifs with hk
  · rw [LargeLossTreatment.factor_of_none hk, mul_one]
    refine hcost.trans (mul_le_mul_of_nonneg_right ?_ (abs_nonneg _))
    norm_num [costRoundoff, unitRoundoff]
  · have hrange := (inRange_roundedCost hx p).mul hl
    exact off_twice unitRoundoff_nonneg hcost (hrange.abs_ambient_sub_le (by decide))

theorem inRange_perilPremium (hx : ∀ ref, InRange 324 (x ref))
    (hl : InRange 309 p.largeLoss.factor) : InRange 957 (perilPremium x p) := by
  rw [perilPremium, Rat.cast_id]
  exact (inRange_expectedCost hx p).mul hl

theorem inRange_roundedPremium (hx : ∀ ref, InRange 324 (x ref))
    (hl : InRange 309 p.largeLoss.factor) : InRange 957 (roundedPremium x p) := by
  rw [roundedPremium]
  split_ifs with hk
  · exact (inRange_roundedCost hx p).mono (by norm_num)
  · exact ((inRange_roundedCost hx p).mul hl).ambient (by decide)

theorem roundedPremium_neg_iff (hx : ∀ ref, InRange 324 (x ref))
    (hl : InRange 309 p.largeLoss.factor) : roundedPremium x p < 0 ↔ perilPremium x p < 0 := by
  have hone : costRoundoff < 1 := by norm_num [costRoundoff, unitRoundoff]
  rw [← not_le, ← not_le, nonneg_iff_of_off (roundedPremium_off hx hl) hone]

theorem addPeril_decimals (hx : ∀ ref, InRange 324 (x ref)) (hl : InRange 309 p.largeLoss.factor)
    (h : p.largeLoss.kind ≠ .separateModel) {t : ℚ} :
    addPeril decimals (fun ref => .ok (x ref)) t p =
      (do ensure (¬ roundedPremium x p < 0) (negativeCost p)
          (fix (t + roundedPremium x p)).mapError .arithmetic) := by
  have hrestored : restoredCost decimals p (roundedCost x p) = .ok (roundedPremium x p) := by
    rw [restoredCost_eq h, roundedPremium]
    split_ifs with hk
    · rfl
    · simp only [decimals, id, ((inRange_roundedCost hx p).mul hl).fix (by decide)]
      rfl
  rw [addPeril, perilCost_decimals hx]
  simp only [bind, Except.bind, hrestored]
  rfl

/-! ## The sum in decimals -/

/-- What holds of the sum of `k` costs, `s` exactly and `t` in decimals. -/
structure Summed (k : ℕ) (s t : ℚ) : Prop where
  kept : Kept t
  nonneg : 0 ≤ t
  tracks : Tracks unitRoundoff costRoundoff k s t
  exact_nonneg : 0 ≤ s
  exact_le : s ≤ k * 10 ^ (957 : ℤ)

theorem summed_zero : Summed 0 0 0 where
  kept := kept_zero
  nonneg := le_rfl
  tracks := tracks_zero _ _
  exact_nonneg := le_rfl
  exact_le := by simp

theorem Summed.off {k : ℕ} {s t : ℚ} (h : Summed k s t) : |t - s| ≤ (k + 2) / 10 ^ 27 * s := by
  have hk : (0 : ℚ) ≤ k := Nat.cast_nonneg k
  refine (h.tracks.abs_sub_le unitRoundoff_nonneg).trans ?_
  apply mul_le_mul_of_nonneg_right _ h.exact_nonneg
  rw [costRoundoff, unitRoundoff]
  linarith

theorem Summed.add_le {k : ℕ} {s t c : ℚ} (h : Summed k s t) (hk : k ≤ 128 ^ 32) (hc : 0 ≤ c)
    (hmax : c ≤ 10 ^ (957 : ℤ)) : |t + c| ≤ 10 ^ (1094 : ℤ) := by
  have hB : (0 : ℚ) < 10 ^ (957 : ℤ) := zpow_pos (by norm_num) _
  have hk0 : (0 : ℚ) ≤ k := Nat.cast_nonneg k
  have hk68 : (k : ℚ) ≤ 10 ^ 68 := by
    calc (k : ℚ) ≤ 128 ^ 32 := by exact_mod_cast hk
      _ ≤ 10 ^ 68 := by norm_num
  have hs : s ≤ 10 ^ 68 * 10 ^ (957 : ℤ) :=
    h.exact_le.trans (mul_le_mul_of_nonneg_right hk68 hB.le)
  have hoff := (abs_le.mp h.off).2
  have hpart : (k + 2) / 10 ^ 27 * s ≤ 10 ^ 68 * s := by
    apply mul_le_mul_of_nonneg_right _ h.exact_nonneg
    linarith
  have hpow : (10 : ℚ) ^ (1094 : ℤ) = 10 ^ 137 * 10 ^ (957 : ℤ) := by
    rw [← zpow_natCast, ← zpow_add₀ (by norm_num)]
    norm_num
  rw [abs_of_nonneg (add_nonneg h.nonneg hc), hpow]
  generalize (10 : ℚ) ^ (957 : ℤ) = B at hB hmax hs
  linarith

theorem addPeril_summed (hx : ∀ ref, InRange 324 (x ref)) (hl : InRange 309 p.largeLoss.factor)
    (hkind : p.largeLoss.kind ≠ .separateModel) (hpos : ¬ perilPremium x p < 0) {k : ℕ} {s t : ℚ}
    (hk : k ≤ 128 ^ 32) (h : Summed k s t) : ∃ t',
      addPeril decimals (fun ref => .ok (x ref)) t p = .ok t' ∧
        Summed (k + 1) (s + perilPremium x p) t' := by
  have hrounded : 0 ≤ roundedPremium x p :=
    not_lt.mp (mt (roundedPremium_neg_iff hx hl).mp hpos)
  have hexact : 0 ≤ perilPremium x p := not_lt.mp hpos
  have hrange := inRange_roundedPremium hx hl
  have hmax : roundedPremium x p ≤ 10 ^ (957 : ℤ) := (le_abs_self _).trans hrange.abs_le
  have hmax' : perilPremium x p ≤ 10 ^ (957 : ℤ) :=
    (le_abs_self _).trans (inRange_perilPremium hx hl).abs_le
  have hnormal : roundedPremium x p = 0 ∨ (10 : ℚ) ^ (-maxExponent) ≤ roundedPremium x p := by
    rcases hrange with hzero | ⟨hle, -⟩
    · exact Or.inl hzero
    · right
      rw [abs_of_nonneg hrounded] at hle
      exact (zpow_le_zpow_right₀ (by norm_num) (by decide)).trans hle
  have hoff := roundedPremium_off hx hl
  rw [abs_of_nonneg hexact] at hoff
  refine ⟨ambient (t + roundedPremium x p), ?_, ?_⟩
  · have hfix := fix_of_le (N := 1094) (by decide) (by decide) (h.add_le hk hrounded hmax)
    rw [addPeril_decimals hx hl hkind, hfix]
    exact ensure_bind_eq_ok.mpr ⟨mt (roundedPremium_neg_iff hx hl).mp hpos, rfl⟩
  · refine ⟨kept_ambient _, toGrid_nonneg (add_nonneg h.nonneg hrounded), ?_,
      add_nonneg h.exact_nonneg hexact, ?_⟩
    · exact h.tracks.add unitRoundoff_nonneg hrounded hoff (roundedSum h.kept h.nonneg hnormal)
    · have hle := add_le_add h.exact_le hmax'
      rwa [← add_one_mul, ← Nat.cast_add_one] at hle

/-- The perils of a structure that is stored and compiled. -/
def Composable (perils : List PerilComponent) : Prop := ∀ p ∈ perils,
  InRange 309 p.largeLoss.factor ∧ p.largeLoss.kind ≠ .separateModel

theorem foldlM_summed (hx : ∀ ref, InRange 324 (x ref)) (hp : Composable perils)
    (hpos : ∀ p ∈ perils, ¬ perilPremium x p < 0) {k : ℕ} {s t : ℚ}
    (hk : k + perils.length ≤ 128 ^ 32) (h : Summed k s t) : ∃ t',
      perils.foldlM (addPeril decimals fun ref => .ok (x ref)) t = .ok t' ∧
        Summed (k + perils.length) (s + premium x perils) t' := by
  induction perils generalizing k s t with
  | nil => exact ⟨t, rfl, by simpa [premium] using h⟩
  | cons p perils ih =>
    obtain ⟨hl, hkind⟩ := hp p List.mem_cons_self
    rw [List.length_cons] at hk
    obtain ⟨u, hu, hsummed⟩ :=
      addPeril_summed hx hl hkind (hpos p List.mem_cons_self) (by omega) h
    obtain ⟨t', ht', hsummed'⟩ := ih (fun q hq => hp q (List.mem_cons_of_mem _ hq))
      (fun q hq => hpos q (List.mem_cons_of_mem _ hq)) (k := k + 1) (by omega) hsummed
    refine ⟨t', foldlM_cons_eq_ok.mpr ⟨u, hu, ht'⟩, ?_⟩
    have hsum : s + premium x (p :: perils) = s + perilPremium x p + premium x perils := by
      rw [premium, List.map_cons, List.sum_cons, premium, add_assoc]
    rw [hsum, List.length_cons, show k + (perils.length + 1) = k + 1 + perils.length by omega]
    exact hsummed'

theorem not_neg_of_foldlM (hx : ∀ ref, InRange 324 (x ref)) (hp : Composable perils) {t t' : ℚ}
    (h : perils.foldlM (addPeril decimals fun ref => .ok (x ref)) t = .ok t') :
    ∀ p ∈ perils, ¬ perilPremium x p < 0 := by
  induction perils generalizing t with
  | nil => simp
  | cons p perils ih =>
    obtain ⟨hl, hkind⟩ := hp p List.mem_cons_self
    obtain ⟨u, hu, h⟩ := foldlM_cons_eq_ok.mp h
    rw [addPeril_decimals hx hl hkind] at hu
    have hpos := (ensure_bind_eq_ok.mp hu).1
    refine List.forall_mem_cons.mpr ⟨mt (roundedPremium_neg_iff hx hl).mpr hpos, ?_⟩
    exact ih (fun q hq => hp q (List.mem_cons_of_mem _ hq)) h

end Decimals

/-! ## Without rounding -/

omit [LinearOrder K] in
theorem premium_cons (x : ArtifactRef → K) (p : PerilComponent) (perils : List PerilComponent) :
    premium x (p :: perils) = perilPremium x p + premium x perils := by
  rw [premium, List.map_cons, List.sum_cons, premium]

theorem foldlM_exactly (hkind : ∀ p ∈ perils, p.largeLoss.kind ≠ .separateModel) {t v : K} :
    perils.foldlM (addPeril (exactly K) fun ref => .ok (x ref)) t = .ok v ↔
      (∀ p ∈ perils, ¬ perilPremium x p < 0) ∧ t + premium x perils = v := by
  induction perils generalizing t with
  | nil => simp [premium, pure_eq_ok]
  | cons p perils ih =>
    simp only [foldlM_cons_eq_ok, addPeril_exactly (hkind p List.mem_cons_self),
      ensure_bind_eq_ok, Except.ok.injEq, List.forall_mem_cons, premium_cons]
    constructor
    · rintro ⟨u, ⟨hp, rfl⟩, hu⟩
      obtain ⟨hpos, hsum⟩ := (ih fun q hq => hkind q (List.mem_cons_of_mem _ hq)).mp hu
      exact ⟨⟨hp, hpos⟩, by rw [← add_assoc, hsum]⟩
    · rintro ⟨⟨hp, hpos⟩, hsum⟩
      refine ⟨_, ⟨hp, rfl⟩, (ih fun q hq => hkind q (List.mem_cons_of_mem _ hq)).mpr ⟨hpos, ?_⟩⟩
      rw [add_assoc, hsum]

omit [LinearOrder K] in
theorem cost_oneRow (x : ArtifactRef → K) (p : PerilComponent) :
    (oneRow x p).cost = .ok [expectedCost x p] := by
  cases hm : p.method with
  | frequencySeverity =>
    obtain ⟨f, s, hf, hs⟩ := PerilComponent.frequencySeverity hm
    simp [PerilPrediction.cost, oneRow, hm, hf, hs, require, expectedCost, modelled, bind,
      Except.bind, ensure, pure, Except.pure]
  | burningCost =>
    obtain ⟨b, hb⟩ := PerilComponent.burningCost hm
    simp [PerilPrediction.cost, oneRow, hm, hb, require, expectedCost, modelled]

omit [LinearOrder K] in
theorem restore_oneRow (hkind : p.largeLoss.kind ≠ .separateModel) :
    (oneRow x p).restore [expectedCost x p] = .ok [perilPremium x p] := by
  cases hk : p.largeLoss.kind with
  | none =>
    simp [PerilPrediction.restore, oneRow, hk, perilPremium, LargeLossTreatment.factor_of_none hk]
  | capped =>
    simp [PerilPrediction.restore, oneRow, hk, LargeLossTreatment.loading_of_capped hk, require,
      perilPremium, bind, Except.bind, pure, Except.pure]
  | flatLoading =>
    simp [PerilPrediction.restore, oneRow, hk, LargeLossTreatment.factor_of_flat hk, require,
      perilPremium, bind, Except.bind, pure, Except.pure]
  | separateModel => exact absurd hk hkind

def column (x : ArtifactRef → K) (p : PerilComponent) : String × List K :=
  (s!"peril_{p.peril}", [perilPremium x p])

theorem addColumn_eq_ok (hkind : p.largeLoss.kind ≠ .separateModel)
    {columns columns' : List (String × List K)} (hrows : ∀ c ∈ columns, c.2.length = 1) :
    addColumn columns (oneRow x p) = .ok columns' ↔
      ¬ perilPremium x p < 0 ∧ columns ++ [column x p] = columns' := by
  have hsame : sameRows (oneRow x p).peril columns [perilPremium x p] = .ok () := by
    cases columns with
    | nil => rfl
    | cons c columns =>
      rw [sameRows, ensure_eq_ok]
      exact (hrows c List.mem_cons_self).symm
  simp only [addColumn, Failure.bind_eq_ok, cost_oneRow, Except.ok.injEq, exists_eq_left',
    restore_oneRow hkind, hsame, ensure_eq_ok, exists_const, pure_eq_ok, List.forall_mem_singleton,
    true_and]
  rfl

theorem foldlM_addColumn (hkind : ∀ p ∈ perils, p.largeLoss.kind ≠ .separateModel)
    {columns columns' : List (String × List K)} (hrows : ∀ c ∈ columns, c.2.length = 1) :
    (perils.map (oneRow x)).foldlM addColumn columns = .ok columns' ↔
      (∀ p ∈ perils, ¬ perilPremium x p < 0) ∧ columns ++ perils.map (column x) = columns' := by
  induction perils generalizing columns with
  | nil => simp [pure_eq_ok]
  | cons p perils ih =>
    have hrows' : ∀ c ∈ columns ++ [column x p], c.2.length = 1 := by
      simpa [or_imp, forall_and, column] using hrows
    have hrest := ih (fun q hq => hkind q (List.mem_cons_of_mem _ hq)) hrows'
    rw [List.append_assoc, List.singleton_append] at hrest
    simp only [List.map_cons, foldlM_cons_eq_ok, addColumn_eq_ok (hkind p List.mem_cons_self) hrows,
      List.forall_mem_cons]
    constructor
    · rintro ⟨_, ⟨hp, rfl⟩, hu⟩
      obtain ⟨hpos, hcolumns⟩ := hrest.mp hu
      exact ⟨⟨hp, hpos⟩, hcolumns⟩
    · rintro ⟨⟨hp, hpos⟩, hcolumns⟩
      exact ⟨_, ⟨hp, rfl⟩, hrest.mpr ⟨hpos, hcolumns⟩⟩

omit [LinearOrder K] in
theorem sumColumns_singles (l : List K) (hne : l ≠ []) : sumColumns (l.map ([·])) = [l.sum] := by
  have hfold : ∀ (rest : List K) (a : K),
      (rest.map ([·])).foldl (List.zipWith (· + ·)) [a] = [a + rest.sum] := by
    intro rest
    induction rest with
    | nil => simp
    | cons b rest ih =>
      intro a
      rw [List.map_cons, List.foldl_cons, List.sum_cons, ← add_assoc]
      exact ih (a + b)
  cases l with
  | nil => exact absurd rfl hne
  | cons a rest => exact hfold rest a

/-! ## The compositions agree -/

theorem PerilStructure.repeated_modelled (s : PerilStructure) : repeated s.modelled = [] := by
  have hvalid := s.valid
  simp only [StructureFields.coherent, ensure_bind_eq_ok] at hvalid
  exact hvalid.1

theorem refuseSeparateModel_eq_ok {structureRef : String} :
    refuseSeparateModel structureRef perils = .ok () ↔
      ∀ p ∈ perils, p.largeLoss.kind ≠ .separateModel := by
  simp only [refuseSeparateModel, forM_eq_ok, ensure_eq_ok]

theorem composePremium_exactly {v : K}
    (hkind : ∀ p ∈ perils, p.largeLoss.kind ≠ .separateModel) :
    composePremium (exactly K) perils (fun ref => .ok (x ref)) = .ok v ↔
      (∀ p ∈ perils, ¬ perilPremium x p < 0) ∧ premium x perils = v := by
  rw [composePremium_eq fun _ => rfl, foldlM_exactly hkind, zero_add]

theorem assembleRiskPremium_eq_ok (s : PerilStructure) {frame : RiskPremium K}
    (hkind : ∀ p ∈ s.perils, p.largeLoss.kind ≠ .separateModel) :
    assembleRiskPremium (s.perils.map (oneRow x)) = .ok frame ↔
      (∀ p ∈ s.perils, ¬ perilPremium x p < 0) ∧
        frame = ⟨s.perils.map (column x), [premium x s.perils]⟩ := by
  have hnames : (s.perils.map (oneRow x)).map (fun p => p.peril) = s.modelled := by
    rw [List.map_map]
    rfl
  have hsum : sumColumns ((s.perils.map (column x)).map Prod.snd) = [premium x s.perils] := by
    have := sumColumns_singles (s.perils.map (perilPremium x)) (by simpa using s.nonempty)
    rwa [List.map_map] at this ⊢
  have hne : s.perils.map (oneRow x) ≠ [] := by simpa using s.nonempty
  rw [assembleRiskPremium, ensure_bind_eq_ok, hnames, s.repeated_modelled, ensure_bind_eq_ok]
  have hrows : ∀ c ∈ ([] : List (String × List K)), c.2.length = 1 := by simp
  simp only [Failure.bind_eq_ok, pure_eq_ok, foldlM_addColumn hkind hrows, List.nil_append]
  constructor
  · rintro ⟨-, -, _, ⟨hpos, rfl⟩, rfl⟩
    exact ⟨hpos, by rw [hsum]⟩
  · rintro ⟨hpos, rfl⟩
    exact ⟨hne, trivial, _, ⟨hpos, rfl⟩, by rw [hsum]⟩

theorem toOption_eq_some {ε α : Type} {r : Except ε α} {a : α} : r.toOption = some a ↔ r = .ok a := by
  cases r <;> simp [Except.toOption]

theorem composePremium_eq_assemble (s : PerilStructure)
    (hkind : ∀ p ∈ s.perils, p.largeLoss.kind ≠ .separateModel) :
    ((composePremium (exactly K) s.perils fun ref => .ok (x ref)).map ([·])).toOption =
      ((assembleRiskPremium (s.perils.map (oneRow x))).map RiskPremium.riskPremium).toOption := by
  ext row
  rw [toOption_eq_some, toOption_eq_some, Failure.map_eq_ok, Failure.map_eq_ok]
  simp only [composePremium_exactly hkind, assembleRiskPremium_eq_ok s hkind]
  constructor
  · rintro ⟨_, ⟨hpos, rfl⟩, rfl⟩
    exact ⟨_, ⟨hpos, rfl⟩, rfl⟩
  · rintro ⟨_, ⟨hpos, rfl⟩, rfl⟩
    exact ⟨_, ⟨hpos, rfl⟩, rfl⟩

/-! ## The decimals -/

theorem PerilStructure.composable {s : PerilStructure} (hstored : s.Stored)
    (hkind : ∀ p ∈ s.perils, p.largeLoss.kind ≠ .separateModel) : Composable s.perils := by
  intro p hp
  obtain ⟨hl, hf⟩ := hstored p hp
  exact ⟨(LargeLossTreatment.inRange_factor hl hf).1, hkind p hp⟩

theorem scorePerilStructure_cases {s : PerilStructure} (hp : Composable s.perils)
    (x : ArtifactRef → FiniteFloat) :
    (∃ p ∈ s.perils, perilPremium (fun ref => (x ref).repr) p < 0) ∧
        (∃ e, scorePerilStructure s (fun ref => .finite (x ref).repr) = .error e) ∨
      (¬ ∃ p ∈ s.perils, perilPremium (fun ref => (x ref).repr) p < 0) ∧
        ∃ v, scorePerilStructure s (fun ref => .finite (x ref).repr) = .ok v ∧
          |v - premium (fun ref => (x ref).repr) s.perils| ≤
            (s.perils.length + 2) / 10 ^ 27 * |premium (fun ref => (x ref).repr) s.perils| := by
  set y : ArtifactRef → ℚ := fun ref => (x ref).repr
  have hy : ∀ ref, InRange 324 (y ref) := fun ref => (x ref).inRange
  have hscore : scorePerilStructure s (fun ref => .finite (x ref).repr) =
      s.perils.foldlM (addPeril decimals fun ref => .ok (y ref)) 0 :=
    composePremium_eq fun _ => rfl
  rw [hscore]
  by_cases hneg : ∃ p ∈ s.perils, perilPremium y p < 0
  · refine Or.inl ⟨hneg, ?_⟩
    obtain ⟨p, hmem, hp'⟩ := hneg
    cases h : s.perils.foldlM (addPeril decimals fun ref => .ok (y ref)) 0 with
    | error e => exact ⟨e, rfl⟩
    | ok v => exact absurd hp' (not_neg_of_foldlM hy hp h p hmem)
  · refine Or.inr ⟨hneg, ?_⟩
    have hpos : ∀ p ∈ s.perils, ¬ perilPremium y p < 0 := fun p hmem h => hneg ⟨p, hmem, h⟩
    obtain ⟨v, hv, hsummed⟩ := foldlM_summed hy hp hpos (k := 0)
      (by simpa using s.length_perils_le) summed_zero
    refine ⟨v, hv, ?_⟩
    have hoff := hsummed.off
    have hnonneg := hsummed.exact_nonneg
    rw [zero_add] at hoff hnonneg
    rwa [abs_of_nonneg hnonneg, ← zero_add s.perils.length]

/-- The premium is the sum of the perils, each restored by its own treatment: in decimals it is off by
a part for each peril and two more, it is refused exactly where some peril has a negative cost,
whatever the order of the perils, and without rounding it is what the arrays of one row give. -/
theorem premium_is_the_sum (s : PerilStructure) (structureRef : String) (hstored : s.Stored)
    (hcompiled : refuseSeparateModel structureRef s.perils = .ok ()) :
    (∀ x : ArtifactRef → FiniteFloat,
      (∀ v, scorePerilStructure s (fun ref => .finite (x ref).repr) = .ok v →
        |v - premium (fun ref => (x ref).repr) s.perils| ≤
          (s.perils.length + 2) / 10 ^ 27 * |premium (fun ref => (x ref).repr) s.perils|) ∧
      ∀ order : PerilStructure, order.perils.Perm s.perils →
        ((∃ e, scorePerilStructure order (fun ref => .finite (x ref).repr) = .error e) ↔
          ∃ p ∈ s.perils, perilPremium (fun ref => (x ref).repr) p < 0)) ∧
    ∀ x : ArtifactRef → ℝ,
      ((composePremium (exactly ℝ) s.perils fun ref => .ok (x ref)).map ([·])).toOption =
        ((assembleRiskPremium (s.perils.map (oneRow x))).map RiskPremium.riskPremium).toOption := by
  have hkind := refuseSeparateModel_eq_ok.mp hcompiled
  have hp := PerilStructure.composable hstored hkind
  refine ⟨fun x => ⟨fun v hv => ?_, fun order hperm => ?_⟩,
    fun x => composePremium_eq_assemble s hkind⟩
  · rcases scorePerilStructure_cases hp x with ⟨-, e, he⟩ | ⟨-, w, hw, hoff⟩
    · rw [he] at hv
      cases hv
    · rw [hw] at hv
      obtain rfl : w = v := Except.ok.inj hv
      exact hoff
  · have hp' : Composable order.perils := fun p hmem => hp p (hperm.mem_iff.mp hmem)
    have hmem : (∃ p ∈ s.perils, perilPremium (fun ref => (x ref).repr) p < 0) ↔
        ∃ p ∈ order.perils, perilPremium (fun ref => (x ref).repr) p < 0 := by
      simp only [hperm.mem_iff]
    rw [hmem]
    rcases scorePerilStructure_cases hp' x with ⟨hneg, he⟩ | ⟨hpos, w, hw, -⟩
    · exact iff_of_true he hneg
    · refine iff_of_false ?_ hpos
      rintro ⟨e, he⟩
      rw [hw] at he
      cases he

/-! ## Two perils that share a model -/

def motorModel (slug : String) : ArtifactRef := ⟨"model", slug, 7⟩

/-- Large losses capped, and their mean restored by 1.043. -/
def cappedTreatment : LargeLossTreatment where
  kind := .capped
  capMinor := some 10000000
  restorationLoading := some (1043 / 1000)
  excessModel := none
  attachmentMinor := none
  loadingFactor := none
  evidenceBlob := some "sha256"
  valid := by with_unfolding_all decide

def noTreatment : LargeLossTreatment where
  kind := .none
  capMinor := none
  restorationLoading := none
  excessModel := none
  attachmentMinor := none
  loadingFactor := none
  evidenceBlob := none
  valid := by decide

def accidentalDamage : PerilComponent where
  peril := "AD"
  method := .frequencySeverity
  frequencyModel := some (motorModel "motor-frequency")
  severityModel := some (motorModel "motor-ad-severity")
  burningCostModel := none
  largeLoss := cappedTreatment
  code := by decide
  valid := by decide

def windscreen : PerilComponent where
  peril := "WS"
  method := .frequencySeverity
  frequencyModel := some (motorModel "motor-frequency")
  severityModel := some (motorModel "motor-ws-severity")
  burningCostModel := none
  largeLoss := noTreatment
  code := by decide
  valid := by decide

def motorStructure : PerilStructure where
  perils := [accidentalDamage, windscreen]
  excludedPerils := []
  hasReconciliation := true
  status := .approved
  nonempty := by decide
  valid := by decide

def motorPrediction (ref : ArtifactRef) : FiniteFloat :=
  if ref = motorModel "motor-frequency" then ⟨1 / 10, Or.inr (by with_unfolding_all decide)⟩
  else ⟨2500, Or.inr (by with_unfolding_all decide)⟩

theorem motor_premium :
    scorePerilStructure motorStructure (fun ref => .finite (motorPrediction ref).repr) =
      .ok (51075 / 100) ∧
    |(51075 / 100 : ℚ) - premium (fun ref => (motorPrediction ref).repr) motorStructure.perils| ≤
      (motorStructure.perils.length + 2) / 10 ^ 27 *
        |premium (fun ref => (motorPrediction ref).repr) motorStructure.perils| := by
  have hscore : scorePerilStructure motorStructure
      (fun ref => .finite (motorPrediction ref).repr) = .ok (51075 / 100) := by decide +kernel
  have hstored : motorStructure.Stored := by with_unfolding_all decide
  exact ⟨hscore, ((premium_is_the_sum motorStructure "peril_structure:motor@1" hstored
    (by decide)).1 motorPrediction).1 _ hscore⟩

end GiPricing.Perils
