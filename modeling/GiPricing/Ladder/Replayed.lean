import GiPricing.Ladder.Recovery

/-! # Recovered operations replay

An operation recovered from two values of at most 28 digits takes the first back to the second,
unless the only explanation is a difference that is too long for the context.
-/

namespace GiPricing

open Decimal Failure

def LadderOperation.operand (operation : LadderOperation) : Option ℚ :=
  operation.factor.or operation.divisor

/-- An operation of the same kind by another operand. -/
def LadderOperation.withOperand (operation : LadderOperation) (x : ℚ) : LadderOperation :=
  { operation with
    factor := operation.factor.map fun _ => x
    divisor := operation.divisor.map fun _ => x }

namespace Recovery

/-- The operation replays to a value within the tolerance. -/
def Reproduces (p c : ℚ) (operation : LadderOperation) : Prop :=
  ∃ replayed, replayStep p operation = .ok (some replayed) ∧ |replayed - c| ≤ tolerance * |c|

/-- What the replay of a recovered operation has to give. -/
structure Replays (p c : ℚ) (operation : LadderOperation) : Prop where
  close : Reproduces p c operation
  exact : operation.kind = .add ∨ operation.factor = some (c / p) →
    replayStep p operation = .ok (some c)
  fewest : operation.factor ≠ some (c / p) → operation.divisor ≠ some (p / c) →
    ∀ {x y : ℚ} {n : ℕ}, operation.operand = some x → Fits n y →
      Reproduces p c (operation.withOperand y) → Fits n x

/-- An operation is recovered, and it replays. -/
def Recovered (p c : ℚ) (forceAdd : Bool) : Prop :=
  ∃ operation, recoverOperation p c forceAdd = .ok operation ∧ Replays p c operation

/-- One value is the other times or divided by an operand: exactly, or within the tolerance by one
of fewer than 20 digits. -/
def Explained (p c : ℚ) : Prop :=
  Fits prec (c / p) ∨ Fits prec (p / c) ∨ ∃ x, Fits (maxOperandDigits - 1) x ∧
    (|p * x - c| ≤ tolerance * |c| ∨ x ≠ 0 ∧ |roundSig prec (p / x) - c| ≤ tolerance * |c|)

variable {p c q r v f d : ℚ} {operation : LadderOperation}

/-! ## Signals -/

theorem error_of_terminating {s : Signal} (h : terminatingQuotient p q = .error s) :
    s = .overflow := by
  unfold terminatingQuotient at h
  dsimp only at h
  split_ifs at h
  rcases bind_eq_error.mp h with h | ⟨_, _, h⟩
  · exact Context.div_eq_error h (by exact_mod_cast (p / q).den_ne_zero)
  · cases h

theorem error_of_withinTolerance {s : Signal} (h : withinTolerance v c = .error s) :
    s = .overflow := by
  unfold withinTolerance at h
  split_ifs at h
  rcases bind_eq_error.mp h with h | ⟨_, _, h⟩
  · exact Context.fix_eq_error h
  rcases bind_eq_error.mp h with h | ⟨_, _, h⟩
  · exact Context.fix_eq_error h
  rcases bind_eq_error.mp h with h | ⟨_, _, h⟩
  · exact Context.fix_eq_error h
  rcases bind_eq_error.mp h with h | ⟨_, _, h⟩
  · exact Context.fix_eq_error h
  · cases h

theorem error_of_shortestFrom {full : ℚ} {tried : ℚ → Except Signal Bool} {s : Signal}
    (htried : ∀ x, tried x = .error s → s = .overflow) :
    ∀ l, shortestFrom full tried l = .error s → s = .overflow
  | [], h => by cases h
  | _ :: l, h => by
    rw [shortestFrom] at h
    rcases bind_eq_error.mp h with h | ⟨x, _, h⟩
    · exact Context.fix_eq_error h
    rcases bind_eq_error.mp h with h | ⟨found, _, h⟩
    · exact htried x h
    split at h
    · cases h
    · exact error_of_shortestFrom htried l h

theorem error_of_factor {s : Signal} (h : factorReproduces p c f = .error s) : s = .overflow := by
  rcases bind_eq_error.mp h with h | ⟨_, _, h⟩
  · exact Context.fix_eq_error h
  · exact error_of_withinTolerance h

theorem error_of_divisor {s : Signal} (h : divisorReproduces p c d = .error s) : s = .overflow := by
  unfold divisorReproduces at h
  split_ifs at h with hd
  rcases bind_eq_error.mp h with h | ⟨_, _, h⟩
  · exact Context.div_eq_error h hd
  · exact error_of_withinTolerance h

theorem error_of_addition {s : Signal} (h : additionOf p c = .error s) : s = .overflow := by
  rcases bind_eq_error.mp h with h | ⟨_, _, h⟩
  · exact Context.fix_eq_error h
  · cases h

theorem error_of_normalized {s : Signal} {g : ℚ → LadderOperation}
    (h : (do let x ← ctx.fix q; return g x : Except Signal LadderOperation) = .error s) :
    s = .overflow := by
  rcases bind_eq_error.mp h with h | ⟨_, _, h⟩
  · exact Context.fix_eq_error h
  · cases h

theorem error_of_shortest {s : Signal} (hp : p ≠ 0) (hc : c ≠ 0)
    (h : shortestOperation p c = .error s) : s = .overflow := by
  rcases bind_eq_error.mp h with h | ⟨_, _, h⟩
  · exact Context.div_eq_error h hp
  rcases bind_eq_error.mp h with h | ⟨found, _, h⟩
  · exact error_of_shortestFrom (fun _ => error_of_factor) _ h
  cases found with
  | some f => exact error_of_normalized h
  | none =>
    rcases bind_eq_error.mp h with h | ⟨_, _, h⟩
    · exact Context.div_eq_error h hc
    rcases bind_eq_error.mp h with h | ⟨found, _, h⟩
    · exact error_of_shortestFrom (fun _ => error_of_divisor) _ h
    cases found with
    | some d => exact error_of_normalized h
    | none => exact error_of_addition h

theorem error_of_recover {s : Signal} {forceAdd : Bool}
    (h : recoverOperation p c forceAdd = .error s) : s = .overflow := by
  unfold recoverOperation at h
  by_cases hadd : (forceAdd || decide (p = 0)) = true
  · rw [if_pos hadd] at h
    exact error_of_addition h
  rw [if_neg hadd] at h
  have hp : p ≠ 0 := fun h => hadd (by simp [h])
  by_cases heq : c = p
  · rw [if_pos heq] at h
    cases h
  rw [if_neg heq] at h
  rcases bind_eq_error.mp h with h | ⟨found, _, h⟩
  · exact error_of_terminating h
  cases found with
  | some f => exact error_of_normalized h
  | none =>
    by_cases hc : c = 0
    · simp only [if_pos hc] at h
      exact error_of_addition h
    simp only [if_neg hc] at h
    rcases bind_eq_error.mp h with h | ⟨found, _, h⟩
    · exact error_of_terminating h
    cases found with
    | some d => exact error_of_normalized h
    | none => exact error_of_shortest hp hc h

/-! ## Replays of each strategy -/

@[simp] theorem replayStep_multiply (p f : ℚ) :
    replayStep p { kind := .multiply, factor := some f } = (ctx.fix (p * f)).map some := rfl

theorem replayStep_divide (hd : d ≠ 0) :
    replayStep p { kind := .divide, divisor := some d } = (ctx.fix (p / d)).map some := by
  simp only [replayStep, if_neg hd, Context.div]

@[simp] theorem replayStep_addition (p c : ℚ) : replayStep p (GiPricing.additionOf p c) =
    (ctx.fix (p + roundSig prec (c - p))).map some := rfl

theorem fix_value (hc : Fits 28 c) (hr : InRange c) : ctx.fix c = .ok c := by
  rw [fix_inRange hr, (hc.mono (by norm_num [prec])).roundSig_eq]

theorem close_self (hcr : replayStep p operation = .ok (some c)) : Reproduces p c operation :=
  ⟨c, hcr, by rw [sub_self, abs_zero]; exact mul_nonneg tolerance_pos.le (abs_nonneg c)⟩

theorem replays_factor (hc : Fits 28 c) (hr : InRange c) (hp : p ≠ 0) :
    Replays p c { kind := .multiply, factor := some (c / p) } := by
  have hstep : replayStep p { kind := .multiply, factor := some (c / p) } = .ok (some c) := by
    rw [replayStep_multiply, mul_div_cancel₀ _ hp, fix_value hc hr]
    rfl
  exact ⟨close_self hstep, fun _ => hstep, fun h => absurd rfl h⟩

theorem replays_divisor (hc : Fits 28 c) (hr : InRange c) (hp : p ≠ 0) (hc0 : c ≠ 0) :
    Replays p c { kind := .divide, divisor := some (p / c) } := by
  have hstep : replayStep p { kind := .divide, divisor := some (p / c) } = .ok (some c) := by
    rw [replayStep_divide (div_ne_zero hp hc0), div_div_cancel₀ hp, fix_value hc hr]
    rfl
  exact ⟨close_self hstep, fun _ => hstep, fun _ h => absurd rfl h⟩

theorem replayed_of_close (hr : InRange c) (hc0 : c ≠ 0) (h : ctx.fix q = .ok v)
    (hclose : |v - c| ≤ tolerance * |c|) : v = roundSig prec q := by
  have hmin : (0 : ℚ) < 10 ^ ctx.emin := zpow_pos (by norm_num) _
  have hsmall : tolerance * |c| ≤ 1 / 2 * |c| :=
    mul_le_mul_of_nonneg_right (by norm_num [tolerance]) (abs_nonneg c)
  have habs := abs_sub_abs_le_abs_sub c v
  rw [abs_sub_comm] at habs
  have hlow := hr.low hc0
  have hbig : 10 ^ ctx.emin < |v| := by linarith
  exact Context.fix_eq_ok (c := ctx) prec_pos h hbig

theorem replays_shortFactor (hp : Fits 28 p) (hc : Fits 28 c) (hr : InRange c) (hp0 : p ≠ 0)
    (hc0 : c ≠ 0) (h : Shortest (roundSig prec (c / p))
      (fun f => GiPricing.withinTolerance (roundSig prec (p * f)) c) f) :
    Replays p c { kind := .multiply, factor := some f } ∧ Explained p c := by
  have hr0 : c / p ≠ 0 := div_ne_zero hc0 hp0
  have htest : ∀ g, GiPricing.withinTolerance (roundSig prec (p * g)) c = true ↔
      |roundSig prec (p * g) - c| ≤ tolerance * |c| := fun g =>
    withinTolerance_iff (fits_roundSig prec_pos _) hc hc0
  have hclose := (htest f).mp h.reproduces
  obtain ⟨k, hk, hk', hf, _⟩ := h.digits
  obtain ⟨h1, h2⟩ := candidate_bounds hk hr0
  rw [← hf, abs_div] at h1 h2
  have hpos := abs_pos.mpr hp0
  have hfix : ctx.fix (p * f) = .ok (roundSig prec (p * f)) := by
    refine fix_near hr hc0 ?_ ?_ <;> rw [abs_mul]
    · rw [div_le_iff₀ hpos] at h1
      linarith
    · rw [mul_div_assoc', le_div_iff₀ hpos] at h2
      linarith
  have hfits : Fits (maxOperandDigits - 1) f := by
    rw [hf]
    exact (fits_roundSig hk _).mono (by omega)
  constructor
  · refine ⟨⟨_, by rw [replayStep_multiply, hfix]; rfl, hclose⟩, ?_, ?_⟩
    · rintro (hkind | hfactor)
      · cases hkind
      obtain rfl : f = c / p := Option.some.inj hfactor
      rw [replayStep_multiply, mul_div_cancel₀ _ hp0, fix_value hc hr]
      rfl
    · intro _ _ x y n hx hy hrep
      obtain rfl : f = x := Option.some.inj hx
      obtain ⟨v, hv, hvc⟩ := hrep
      obtain ⟨w, hw, hwv⟩ := map_eq_ok.mp hv
      obtain rfl := Option.some.inj hwv
      obtain rfl := replayed_of_close hr hc0 hw hvc
      exact h.fewest (roundSig_ne_zero prec_pos hr0) hy (factor_near hp0 hvc) ((htest y).mpr hvc)
  · refine Or.inr (Or.inr ⟨f, hfits, Or.inl ?_⟩)
    rwa [((hp.mul hfits).mono (by norm_num [prec, maxOperandDigits])).roundSig_eq] at hclose

theorem replays_shortDivisor (hc : Fits 28 c) (hr : InRange c) (hp0 : p ≠ 0) (hc0 : c ≠ 0)
    (h : Shortest (roundSig prec (p / c))
      (fun d => d ≠ 0 && GiPricing.withinTolerance (roundSig prec (p / d)) c) d) :
    Replays p c { kind := .divide, divisor := some d } ∧ Explained p c := by
  have hr0 : p / c ≠ 0 := div_ne_zero hp0 hc0
  have htest : ∀ g, (g ≠ 0 && GiPricing.withinTolerance (roundSig prec (p / g)) c) = true ↔
      g ≠ 0 ∧ |roundSig prec (p / g) - c| ≤ tolerance * |c| := fun g => by
    rw [Bool.and_eq_true, decide_eq_true_eq, withinTolerance_iff (fits_roundSig prec_pos _) hc hc0]
  obtain ⟨hd0, hclose⟩ := (htest d).mp h.reproduces
  obtain ⟨k, hk, hk', hd, _⟩ := h.digits
  obtain ⟨h1, h2⟩ := candidate_bounds hk hr0
  rw [← hd] at h1 h2
  obtain ⟨h1, h2⟩ := divisor_bounds hc0 hd0 h1 h2
  have hfix := fix_near hr hc0 h1 h2
  have hfits : Fits (maxOperandDigits - 1) d := by
    rw [hd]
    exact (fits_roundSig hk _).mono (by omega)
  constructor
  · refine ⟨⟨_, by rw [replayStep_divide hd0, hfix]; rfl, hclose⟩, ?_, ?_⟩
    · rintro (hkind | hfactor)
      · cases hkind
      · cases hfactor
    · intro _ _ x y n hx hy hrep
      obtain rfl : d = x := Option.some.inj hx
      obtain ⟨v, hv, hvc⟩ := hrep
      have hy0 : y ≠ 0 := by
        rintro rfl
        cases hv
      obtain ⟨w, hw, hwv⟩ := map_eq_ok.mp ((replayStep_divide hy0).symm.trans hv)
      obtain rfl := Option.some.inj hwv
      obtain rfl := replayed_of_close hr hc0 hw hvc
      exact h.fewest (roundSig_ne_zero prec_pos hr0) hy (divisor_near hp0 hc0 hy0 hvc)
        ((htest y).mpr ⟨hy0, hvc⟩)
  · exact Or.inr (Or.inr ⟨d, hfits, Or.inr ⟨hd0, hclose⟩⟩)

theorem not_explained (hp : Fits 28 p) (hc : Fits 28 c) (hp0 : p ≠ 0) (hc0 : c ≠ 0)
    (hf : ¬ Fits prec (c / p)) (hd : ¬ Fits prec (p / c))
    (hfactor : GiPricing.shortestOperand (roundSig prec (c / p))
      (fun f => GiPricing.withinTolerance (roundSig prec (p * f)) c) = none)
    (hdivisor : GiPricing.shortestOperand (roundSig prec (p / c))
      (fun d => d ≠ 0 && GiPricing.withinTolerance (roundSig prec (p / d)) c) = none) :
    ¬ Explained p c := by
  have hdigits : 0 < maxOperandDigits - 1 := by norm_num [maxOperandDigits]
  have hdigits' : maxOperandDigits - 1 < maxOperandDigits := by norm_num [maxOperandDigits]
  -- An operand of 19 digits that close is what the quotient is rounded to.
  have hround : ∀ {r x : ℚ}, r ≠ 0 → Fits (maxOperandDigits - 1) x →
      |roundSig prec r - x| ≤ 1 / 10 ^ 25 * |roundSig prec r| →
      roundSig (maxOperandDigits - 1) (roundSig prec r) = x := by
    intro r x hr hx hnear
    refine roundSig_eq_of_near (roundSig_ne_zero prec_pos hr) hx (hnear.trans ?_)
    exact mul_le_mul_of_nonneg_right (by norm_num [maxOperandDigits]) (abs_nonneg _)
  rintro (h | h | ⟨x, hx, hclose | ⟨hx0, hclose⟩⟩)
  · exact hf h
  · exact hd h
  · rw [← ((hp.mul hx).mono (show _ ≤ prec by norm_num [prec, maxOperandDigits])).roundSig_eq]
      at hclose
    have hmiss := shortestOperand_none hfactor hdigits hdigits'
    rw [hround (div_ne_zero hc0 hp0) hx (factor_near hp0 hclose),
      (withinTolerance_iff (fits_roundSig prec_pos _) hc hc0).mpr hclose] at hmiss
    cases hmiss
  · have hmiss := shortestOperand_none hdivisor hdigits hdigits'
    rw [hround (div_ne_zero hp0 hc0) hx (divisor_near hp0 hc0 hx0 hclose),
      (withinTolerance_iff (fits_roundSig prec_pos _) hc hc0).mpr hclose] at hmiss
    simp [hx0] at hmiss

theorem replayStep_difference (hp : Fits 28 p) (hc : Fits 28 c) (hpr : InRange p)
    (hcr : InRange c) : replayStep p (GiPricing.additionOf p c) =
      .ok (some (roundSig prec (p + roundSig prec (c - p)))) := by
  have hmax := hpr.high
  have hmax' := hcr.high
  have hpgrid : OnGrid ctx.etiny p := by
    refine onGrid_of_fits (hp.mono (by norm_num [prec])) fun h => ?_
    have hmin : (0 : ℚ) < 10 ^ ctx.emin := zpow_pos (by norm_num) _
    linarith [hpr.low h]
  have hdiff : |roundSig prec (c - p)| ≤ 10 ^ ctx.emax := by
    refine abs_roundSig_le_zpow prec_pos ?_
    linarith [abs_sub c p, abs_nonneg p, abs_nonneg c]
  have hfix := fix_onGrid (hpgrid.add (onGrid_roundSig (sub_eq hp hc hpr hcr).1))
    (by linarith [abs_add_le p (roundSig prec (c - p)), abs_nonneg p])
  rw [replayStep_addition, hfix]
  rfl

theorem replays_addition_iff (hp : Fits 28 p) (hc : Fits 28 c) (hpr : InRange p) (hcr : InRange c) :
    Replays p c (GiPricing.additionOf p c) ↔ roundSig prec (p + roundSig prec (c - p)) = c := by
  rw [← Option.some_inj, ← @Except.ok.injEq Signal, ← replayStep_difference hp hc hpr hcr]
  refine ⟨fun h => h.exact (Or.inl rfl), fun h => ⟨close_self h, fun _ => h, ?_⟩⟩
  intro _ _ x y n hx
  cases hx

theorem fits_div_zpow (hp : Fits 28 p) (h : 10 ^ Int.log 10 |c| = |c|) : Fits prec (p / c) := by
  have hfits : Fits prec (p / |c|) := by
    rw [← h, div_eq_mul_inv, ← zpow_neg]
    exact (hp.mul_zpow _).mono (by norm_num [prec])
  rcases abs_choice c with hc | hc
  · rwa [hc] at hfits
  · rw [hc, div_neg] at hfits
    simpa using hfits.neg

theorem recovered_iff_replays (hp : Fits 28 p) (hc : Fits 28 c) (hpr : InRange p)
    (hcr : InRange c) (hr : InRange (c / p)) {forceAdd : Bool} :
    Recovered p c forceAdd ↔ Replays p c (GiPricing.recoverOperation p c forceAdd) := by
  simp [Recovered, recoverOperation_eq hp hc hpr hcr hr]

theorem adds_back_of_fits (hc : Fits 28 c) (h : Fits prec (c - p)) :
    roundSig prec (p + roundSig prec (c - p)) = c := by
  rw [h.roundSig_eq, add_sub_cancel, (hc.mono (by norm_num [prec])).roundSig_eq]

/-- Which operations of two values well inside the exponents replay. -/
theorem recovered_iff (hp : Fits 28 p) (hc : Fits 28 c) (hpr : InRange p) (hcr : InRange c)
    (hr : InRange (c / p)) :
    Recovered p c false ↔ |p| ≤ |c| ∨ Fits prec (c - p) ∨ Explained p c := by
  rw [recovered_iff_replays hp hc hpr hcr hr]
  generalize hop : GiPricing.recoverOperation p c false = operation
  have horigin := recoverOperation_origin p c
  rw [hop] at horigin
  cases horigin with
  | factor hp0 hf =>
    exact iff_of_true (replays_factor hc hcr hp0) (Or.inr (Or.inr (Or.inl hf)))
  | divisor hp0 hc0 _ hd =>
    exact iff_of_true (replays_divisor hc hcr hp0 hc0) (Or.inr (Or.inr (Or.inr (Or.inl hd))))
  | shortFactor hp0 hc0 _ h =>
    obtain ⟨hreplays, hexplained⟩ := replays_shortFactor hp hc hcr hp0 hc0 h
    exact iff_of_true hreplays (Or.inr (Or.inr hexplained))
  | shortDivisor hp0 hc0 _ h =>
    obtain ⟨hreplays, hexplained⟩ := replays_shortDivisor hc hcr hp0 hc0 h
    exact iff_of_true hreplays (Or.inr (Or.inr hexplained))
  | addition h =>
    rw [replays_addition_iff hp hc hpr hcr]
    rcases h with rfl | ⟨hc0, hf, hd, hfactor, hdivisor⟩
    · refine iff_of_true (adds_back_of_fits hc ?_) (Or.inl (by simp))
      rw [sub_zero]
      exact hc.mono (by norm_num [prec])
    have hp0 : p ≠ 0 := by
      rintro rfl
      exact hf (by rw [div_zero]; exact fits_zero _)
    constructor
    · intro hback
      by_contra hnot
      rw [not_or, not_or, not_le] at hnot
      exact not_add_back hp hc hnot.1 hnot.2.1 hback
    · rintro (hle | hfits | hexplained)
      · exact add_back hp hc hle fun hten => hd (fits_div_zpow hp hten)
      · exact adds_back_of_fits hc hfits
      · exact absurd hexplained (not_explained hp hc hp0 hc0 hf hd hfactor hdivisor)

theorem forced_recovered (hp : Fits 28 p) (hc : Fits 28 c) (hpr : InRange p) (hcr : InRange c)
    (hr : InRange (c / p)) (h : Fits prec (c - p) ∨ |p| ≤ |c| ∧ ∀ k : ℤ, |c| ≠ 10 ^ k) :
    Recovered p c true := by
  rw [recovered_iff_replays hp hc hpr hcr hr]
  refine (replays_addition_iff hp hc hpr hcr).mpr ?_
  rcases h with h | ⟨hle, hten⟩
  · exact adds_back_of_fits hc h
  · exact add_back hp hc hle (hten _).symm

/-- The only signal is an overflow, and what is recovered well inside the exponents replays unless
a longer difference than the context holds is all that explains the step. -/
theorem recoverOperation_replays :
    (∀ p c forceAdd s, recoverOperation p c forceAdd = .error s → s = .overflow) ∧
    ∀ p c : ℚ, Fits 28 p → Fits 28 c → InRange p → InRange c → InRange (c / p) →
      (Recovered p c false ↔ |p| ≤ |c| ∨ Fits prec (c - p) ∨ Explained p c) ∧
      (Fits prec (c - p) ∨ |p| ≤ |c| ∧ (∀ k : ℤ, |c| ≠ 10 ^ k) → Recovered p c true) :=
  ⟨fun _ _ _ _ => error_of_recover, fun _ _ hp hc hpr hcr hr =>
    ⟨recovered_iff hp hc hpr hcr hr, forced_recovered hp hc hpr hcr hr⟩⟩

theorem inRange_of_zpow {i j : ℤ} (hlo : 10 ^ i ≤ |q|) (hhi : |q| ≤ 10 ^ j)
    (hi : ctx.emin + 1 ≤ i) (hj : j ≤ ctx.emax - 1) : InRange q :=
  Or.inr ⟨(zpow_le_zpow_right₀ (by norm_num) hi).trans hlo,
    hhi.trans (zpow_le_zpow_right₀ (by norm_num) hj)⟩

/-- From three to seven: neither quotient terminates, and the difference adds back. -/
theorem threeToSeven_recovered : Recovered 3 7 false := by
  have hthree : Fits 28 3 := ⟨3, 0, by norm_num, by norm_num⟩
  have hseven : Fits 28 7 := ⟨7, 0, by norm_num, by norm_num⟩
  have hrange : ∀ q : ℚ, 1 ≤ |q| → |q| ≤ 10 → InRange q := fun q h h' =>
    inRange_of_zpow (i := 0) (j := 1) (by simpa using h) (by simpa using h')
      (by simp only [ctx]; norm_num) (by simp only [ctx]; norm_num)
  refine ((recoverOperation_replays.2 3 7 hthree hseven (hrange _ ?_ ?_) (hrange _ ?_ ?_)
    (hrange _ ?_ ?_)).1).mpr (Or.inl ?_) <;> norm_num [abs_of_pos]

theorem overflow_of_quotient (hp : p ≠ 0) (hne : c ≠ p) (hfits : Fits prec (c / p))
    (hbig : 10 ^ (ctx.emax + 1) ≤ |c / p|) : recoverOperation p c false = .error .overflow := by
  have hquotient : terminatingQuotient c p = .error .overflow := by
    unfold terminatingQuotient
    dsimp only
    rw [if_neg hp, stripped_eq_one hfits, if_neg (by simp), Context.div,
      if_neg (by exact_mod_cast (c / p).den_ne_zero), Rat.num_div_den,
      Context.fix_overflow hfits hbig (by simp only [ctx]; norm_num)]
    rfl
  unfold recoverOperation
  rw [if_neg (by simpa using hp), if_neg hne, hquotient]
  rfl

/-- A hundred places apart the smaller value is lost: the difference replays to zero. Past the
exponents of the context the quotient overflows. -/
theorem farApart_not_recovered :
    (Fits 28 (7 * 10 ^ 100) ∧ Fits 28 3 ∧ ¬ Recovered (7 * 10 ^ 100) 3 false) ∧
    recoverOperation (10 ^ (-999999 : ℤ)) (10 ^ (999999 : ℤ)) false = .error .overflow := by
  have hfar : Fits 28 (7 * 10 ^ 100) := ⟨7, 100, by norm_num, by norm_num⟩
  have hthree : Fits 28 3 := ⟨3, 0, by norm_num, by norm_num⟩
  refine ⟨⟨hfar, hthree, ?_⟩, ?_⟩
  · have hfarRange : InRange (7 * 10 ^ 100) :=
      inRange_of_zpow (i := 100) (j := 101) (by norm_num) (by norm_num)
        (by simp only [ctx]; norm_num) (by simp only [ctx]; norm_num)
    have hthreeRange : InRange 3 :=
      inRange_of_zpow (i := 0) (j := 1) (by norm_num) (by norm_num)
        (by simp only [ctx]; norm_num) (by simp only [ctx]; norm_num)
    have hquotient : InRange (3 / (7 * 10 ^ 100)) :=
      inRange_of_zpow (i := -101) (j := 0) (by norm_num) (by norm_num)
        (by simp only [ctx]; norm_num) (by simp only [ctx]; norm_num)
    rw [recovered_iff_replays hfar hthree hfarRange hthreeRange hquotient,
      show GiPricing.recoverOperation (7 * 10 ^ 100) 3 false =
        GiPricing.additionOf (7 * 10 ^ 100) 3 by decide +kernel,
      replays_addition_iff hfar hthree hfarRange hthreeRange]
    with_unfolding_all decide
  · have hdiv : (10 : ℚ) ^ (999999 : ℤ) / 10 ^ (-999999 : ℤ) = 10 ^ (1999998 : ℤ) := by
      rw [← zpow_sub₀ (by norm_num)]
      rfl
    refine overflow_of_quotient (zpow_ne_zero _ (by norm_num)) ?_ ?_ ?_
    · exact fun h => absurd (zpow_right_injective₀ (by norm_num) (by norm_num) h) (by norm_num)
    · rw [hdiv]
      exact (fits_zpow _).mono prec_pos
    · rw [hdiv, abs_of_pos (zpow_pos (by norm_num) _)]
      exact zpow_le_zpow_right₀ (by norm_num) (by simp only [ctx]; norm_num)

end Recovery

end GiPricing
