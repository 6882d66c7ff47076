import GiPricing.Ladder.Strategies
import GiPricing.Numeric.Contexts

/-! # Recovering an operation in a context

The recovery and the replay of an operation as the context runs them, each step with the signal it
may raise. For values whose exponents are well inside the context's nothing is raised, and they are
the recovery and the replay of the ladder.
-/

namespace GiPricing.Recovery

open Decimal Failure

def ctx : Context := { prec := prec, emin := -999999, emax := 999999 }

/-- The quotient if it terminates and fits the context. -/
def terminatingQuotient (numerator denominator : ℚ) : Except Signal (Option ℚ) :=
  if denominator = 0 then .ok none
  else
    let ratio := numerator / denominator
    let remaining := stripPrime 5 ratio.den (stripPrime 2 ratio.den ratio.den)
    if remaining ≠ 1 then .ok none
    else do
      let quotient ← ctx.div ratio.num ratio.den
      return if quotient = ratio then some quotient else none

/-- The first rounding of `full`, to each number of digits in turn, that reproduces. -/
def shortestFrom (full : ℚ) (reproduces : ℚ → Except Signal Bool) :
    List ℕ → Except Signal (Option ℚ)
  | [] => .ok none
  | digits :: rest => do
    let candidate ← { ctx with prec := digits }.fix full
    let found ← reproduces candidate
    if found then return some candidate else shortestFrom full reproduces rest

def shortestOperand (full : ℚ) (reproduces : ℚ → Except Signal Bool) : Except Signal (Option ℚ) :=
  shortestFrom full reproduces (List.range' 1 (maxOperandDigits - 1))

def withinTolerance (replayed rungValue : ℚ) : Except Signal Bool :=
  if rungValue = 0 then .ok (replayed = 0)
  else do
    let difference ← ctx.sub replayed rungValue
    let distance ← ctx.abs difference
    let size ← ctx.abs rungValue
    let bound ← ctx.mul tolerance size
    return distance ≤ bound

def additionOf (previous current : ℚ) : Except Signal LadderOperation := do
  let amount ← ctx.sub current previous
  return { kind := .add, amountUnrounded := some amount }

/-- `previous * f` is within the tolerance of `current`. -/
def factorReproduces (previous current f : ℚ) : Except Signal Bool := do
  let replayed ← ctx.mul previous f
  withinTolerance replayed current

/-- `d` is no zero and `previous / d` is within the tolerance of `current`. -/
def divisorReproduces (previous current d : ℚ) : Except Signal Bool :=
  if d = 0 then .ok false
  else do
    let replayed ← ctx.div previous d
    withinTolerance replayed current

/-- The shortest factor, else the shortest divisor, else the difference. -/
def shortestOperation (previous current : ℚ) : Except Signal LadderOperation := do
  let fullFactor ← ctx.div current previous
  match ← shortestOperand fullFactor (factorReproduces previous current) with
  | some found => do
    let factor ← ctx.fix found
    return { kind := .multiply, factor := some factor }
  | none => do
    let fullDivisor ← ctx.div previous current
    match ← shortestOperand fullDivisor (divisorReproduces previous current) with
    | some found => do
      let divisor ← ctx.fix found
      return { kind := .divide, divisor := some divisor }
    | none => additionOf previous current

/-- The operation that took `previous` to `current`. To normalize an operand rounds it once more. -/
def recoverOperation (previous current : ℚ) (forceAdd : Bool) : Except Signal LadderOperation :=
  if forceAdd || previous = 0 then additionOf previous current
  else if current = previous then .ok { kind := .multiply, factor := some 1 }
  else do
    match ← terminatingQuotient current previous with
    | some factor => do
      let factor ← ctx.fix factor
      return { kind := .multiply, factor := some factor }
    | none =>
      if current = 0 then additionOf previous current
      else do
        match ← terminatingQuotient previous current with
        | some divisor => do
          let divisor ← ctx.fix divisor
          return { kind := .divide, divisor := some divisor }
        | none => shortestOperation previous current

/-- Apply one recorded operation; none if its operand is missing. -/
def replayStep (running : ℚ) (operation : LadderOperation) : Except Signal (Option ℚ) :=
  match operation.kind, operation.factor, operation.divisor, operation.amountUnrounded with
  | .multiply, some factor, _, _ => (ctx.mul running factor).map some
  | .divide, _, some divisor, _ =>
    if divisor = 0 then .ok none else (ctx.div running divisor).map some
  | .add, _, _, some amount => (ctx.add running amount).map some
  | .clamp, _, _, _ => .ok operation.boundUnrounded
  | .none, _, _, _ | .round, _, _, _ => .ok (some running)
  | _, _, _, _ => .ok none

variable {p c q r v f d : ℚ} {k : ℕ}

/-! ## Well inside the exponents -/

/-- A value whose exponent is at least one off the context's greatest and least. -/
def InRange (q : ℚ) : Prop := q = 0 ∨ 10 ^ (ctx.emin + 1) ≤ |q| ∧ |q| ≤ 10 ^ (ctx.emax - 1)

theorem prec_pos : 0 < prec := by norm_num [prec]

theorem etiny_eq : ctx.etiny = ctx.emin - 99 := by simp only [Context.etiny, ctx, prec]; norm_num

theorem InRange.low (h : InRange q) (hq : q ≠ 0) : 10 ^ ctx.emin * 10 ≤ |q| := by
  rw [← zpow_add_one₀ (by norm_num)]
  exact (h.resolve_left hq).1

theorem InRange.high (h : InRange q) : 10 * |q| ≤ 10 ^ ctx.emax := by
  rcases h with rfl | ⟨_, h⟩
  · simpa using (zpow_pos (by norm_num) ctx.emax).le
  · rw [zpow_sub_one₀ (by norm_num)] at h
    linarith

theorem InRange.roundSig (hk : 0 < k) (h : InRange q) : InRange (roundSig k q) := by
  rcases h with rfl | ⟨hlo, hhi⟩
  · exact Or.inl (roundSig_zero k)
  · exact Or.inr ⟨zpow_le_abs_roundSig hk hlo, abs_roundSig_le_zpow hk hhi⟩

theorem InRange.inv (h : InRange q) : InRange q⁻¹ := by
  rcases h with rfl | ⟨hlo, hhi⟩
  · exact Or.inl inv_zero
  have hpos : 0 < |q| := (zpow_pos (by norm_num) _).trans_le hlo
  have hrange : -(ctx.emax - 1) = ctx.emin + 1 := by simp only [ctx]; norm_num
  refine Or.inr ⟨?_, ?_⟩
  · rw [← hrange, zpow_neg, abs_inv]
    exact inv_anti₀ hpos hhi
  · rw [show ctx.emax - 1 = -(ctx.emin + 1) by omega, zpow_neg, abs_inv]
    exact inv_anti₀ (zpow_pos (by norm_num) _) hlo

theorem fix_digits (hk : 0 < k) (h : InRange q) :
    { ctx with prec := k }.fix q = .ok (Decimal.roundSig k q) := by
  have hhigh := h.high
  refine Context.fix_eq hk ?_ ?_
  · rcases eq_or_ne q 0 with rfl | hq
    · exact Or.inr (onGrid_zero _)
    · have hpos : (0 : ℚ) < 10 ^ ctx.emin := zpow_pos (by norm_num) _
      have hlow := h.low hq
      exact Or.inl (show 10 ^ ctx.emin ≤ |q| by linarith)
  · show |q| ≤ 2 * 10 ^ ctx.emax
    linarith [abs_nonneg q]

theorem fix_inRange (h : InRange q) : ctx.fix q = .ok (roundSig prec q) :=
  fix_digits prec_pos h

theorem fix_near (hc : InRange c) (hc0 : c ≠ 0) (hlo : |c| ≤ 10 * |q|) (hhi : |q| ≤ 10 * |c|) :
    ctx.fix q = .ok (roundSig prec q) := by
  have h1 := hc.low hc0
  have h2 := hc.high
  have hpos : (0 : ℚ) < 10 ^ ctx.emax := zpow_pos (by norm_num) _
  exact Context.fix_eq prec_pos (Or.inl (by linarith)) (by linarith)

theorem fix_onGrid (h : OnGrid ctx.etiny q) (hhigh : |q| ≤ 2 * 10 ^ ctx.emax) :
    ctx.fix q = .ok (roundSig prec q) := Context.fix_eq prec_pos (Or.inr h) hhigh

/-- A normal number is a number of units of the least one. -/
theorem onGrid_of_fits (h : Fits prec q) (hq : q ≠ 0 → 10 ^ ctx.emin ≤ |q|) :
    OnGrid ctx.etiny q := by
  rcases eq_or_ne q 0 with rfl | hq0
  · exact onGrid_zero _
  have hlog : ctx.emin ≤ Int.log 10 |q| :=
    (Int.zpow_le_iff_le_log (by norm_num) (abs_pos.mpr hq0)).mp (by exact_mod_cast hq hq0)
  refine h.onGrid.mono ?_
  rw [etiny_eq]
  simp only [prec]
  omega

theorem onGrid_roundSig (h : OnGrid ctx.etiny q) : OnGrid ctx.etiny (roundSig prec q) := by
  rcases le_or_gt ctx.etiny (Int.log 10 |q| - prec + 1) with hu | hu
  · exact OnGrid.mono ⟨_, rfl⟩ hu
  · have hfits : Fits prec q := by
      apply h.fits
      exact (lt_zpow_log q).trans_le (zpow_le_zpow_right₀ (by norm_num) (by omega))
    rwa [hfits.roundSig_eq]

/-! ## The recovery -/

theorem terminatingQuotient_eq (h : InRange (p / q)) :
    terminatingQuotient p q = .ok (GiPricing.terminatingQuotient p q) := by
  unfold terminatingQuotient GiPricing.terminatingQuotient
  split_ifs with hq
  · rfl
  dsimp only
  have hdiv : ctx.div (p / q).num (p / q).den = .ok (roundSig prec (p / q)) := by
    rw [Context.div, if_neg (by exact_mod_cast (p / q).den_ne_zero), Rat.num_div_den]
    exact fix_inRange h
  split_ifs with hrem hround
  · rfl
  · rw [hdiv, hround]
    simp [bind, Except.bind, pure, Except.pure]
  · rw [hdiv]
    simp [bind, Except.bind, pure, Except.pure, hround]

theorem withinTolerance_eq (hv : Fits prec v) (hlo : 10 ^ ctx.emin ≤ |v|) (hhi : |v| ≤ 10 * |c|)
    (hc : Fits 28 c) (hr : InRange c) :
    withinTolerance v c = .ok (GiPricing.withinTolerance v c) := by
  unfold withinTolerance GiPricing.withinTolerance
  split_ifs with hc0
  · rfl
  have hmax : (0 : ℚ) < 10 ^ ctx.emax := zpow_pos (by norm_num) _
  have hmin : (0 : ℚ) < 10 ^ ctx.emin := zpow_pos (by norm_num) _
  have hlow := hr.low hc0
  have hhigh := hr.high
  have hcgrid : OnGrid ctx.etiny c :=
    onGrid_of_fits (hc.mono (by norm_num [prec])) fun _ => by linarith
  have hdiff : OnGrid ctx.etiny (v - c) := (onGrid_of_fits hv fun _ => hlo).sub hcgrid
  have hle : |v - c| ≤ 2 * 10 ^ ctx.emax := by linarith [abs_sub v c]
  have hround : |roundSig prec (v - c)| ≤ 2 * 10 ^ ctx.emax := by
    have h2 : Fits prec (2 * 10 ^ ctx.emax) := Fits.mono ⟨2, ctx.emax, by norm_num, by simp⟩ prec_pos
    rw [← roundSig_abs, ← h2.roundSig_eq]
    exact roundSig_mono prec_pos hle
  have hsize : roundSig prec |c| = |c| := ((fits_abs hc).mono (by norm_num [prec])).roundSig_eq
  have hsmall : tolerance * |c| ≤ |c| :=
    mul_le_of_le_one_left (abs_nonneg c) (by norm_num [tolerance])
  have htol : OnGrid ctx.etiny (tolerance * |c|) := by
    have hlog : ctx.emin ≤ Int.log 10 |c| :=
      (Int.zpow_le_iff_le_log (by norm_num) (abs_pos.mpr hc0)).mp (by push_cast; linarith)
    have hten : OnGrid (-26) tolerance := ⟨1, by norm_num [tolerance]⟩
    refine (hten.mul hc.onGrid.abs).mono ?_
    rw [etiny_eq]
    push_cast
    omega
  have hsub : ctx.sub v c = .ok (roundSig prec (v - c)) := fix_onGrid hdiff hle
  have hdist : ctx.abs (roundSig prec (v - c)) = .ok (roundSig prec |roundSig prec (v - c)|) :=
    fix_onGrid (onGrid_roundSig hdiff).abs (by rwa [abs_abs])
  have habs : ctx.abs c = .ok |c| := by
    rw [Context.abs, fix_onGrid hcgrid.abs (by rw [abs_abs]; linarith [abs_nonneg c]), hsize]
  have hbound : ctx.mul tolerance |c| = .ok (roundSig prec (tolerance * |c|)) := by
    refine fix_onGrid htol ?_
    rw [abs_of_nonneg (mul_nonneg (by norm_num [tolerance]) (abs_nonneg c))]
    linarith
  simp only [hsub, hdist, habs, hbound, hsize, bind, Except.bind, pure, Except.pure]

theorem sub_eq (hp : Fits 28 p) (hc : Fits 28 c) (hpr : InRange p) (hcr : InRange c) :
    OnGrid ctx.etiny (c - p) ∧ ctx.sub c p = .ok (roundSig prec (c - p)) := by
  have hmin : (0 : ℚ) < 10 ^ ctx.emin := zpow_pos (by norm_num) _
  have hpgrid : OnGrid ctx.etiny p :=
    onGrid_of_fits (hp.mono (by norm_num [prec])) fun h => by linarith [hpr.low h]
  have hcgrid : OnGrid ctx.etiny c :=
    onGrid_of_fits (hc.mono (by norm_num [prec])) fun h => by linarith [hcr.low h]
  refine ⟨hcgrid.sub hpgrid, fix_onGrid (hcgrid.sub hpgrid) ?_⟩
  linarith [abs_sub c p, hpr.high, hcr.high, abs_nonneg p, abs_nonneg c]

theorem additionOf_eq (hp : Fits 28 p) (hc : Fits 28 c) (hpr : InRange p) (hcr : InRange c) :
    additionOf p c = .ok (GiPricing.additionOf p c) := by
  rw [additionOf, (sub_eq hp hc hpr hcr).2]
  rfl

theorem candidate_bounds (hk : 0 < k) (hr : r ≠ 0) :
    |r| ≤ 10 * |roundSig k (roundSig prec r)| ∧ |roundSig k (roundSig prec r)| ≤ 10 * |r| := by
  have hlo := zpow_log_le hr
  have hhi := lt_zpow_log r
  have h1 := zpow_le_abs_roundSig hk (zpow_le_abs_roundSig prec_pos hlo)
  have h2 := abs_roundSig_le_zpow hk (abs_roundSig_le_zpow prec_pos hhi.le)
  rw [zpow_add_one₀ (by norm_num)] at hhi h2
  exact ⟨by linarith, by linarith⟩

theorem replayed_eq (hc : Fits 28 c) (hcr : InRange c) (hc0 : c ≠ 0) (hlo : |c| ≤ 10 * |q|)
    (hhi : |q| ≤ 10 * |c|) :
    ctx.fix q = .ok (roundSig prec q) ∧
      withinTolerance (roundSig prec q) c = .ok (GiPricing.withinTolerance (roundSig prec q) c) := by
  refine ⟨fix_near hcr hc0 hlo hhi, ?_⟩
  have hten : Fits prec (10 * |c|) := by
    have h := (fits_abs hc).mul_zpow 1
    rw [zpow_one, mul_comm] at h
    exact h.mono (by norm_num [prec])
  refine withinTolerance_eq (fits_roundSig prec_pos q) ?_ ?_ hc hcr
  · exact zpow_le_abs_roundSig prec_pos (by linarith [hcr.low hc0])
  · rw [← roundSig_abs, ← hten.roundSig_eq]
    exact roundSig_mono prec_pos hhi

theorem factorReproduces_eq (hp : p ≠ 0) (hc : Fits 28 c) (hcr : InRange c) (hc0 : c ≠ 0)
    (hlo : |c / p| ≤ 10 * |f|) (hhi : |f| ≤ 10 * |c / p|) :
    factorReproduces p c f = .ok (GiPricing.withinTolerance (roundSig prec (p * f)) c) := by
  have hpos := abs_pos.mpr hp
  rw [abs_div] at hlo hhi
  obtain ⟨hfix, hwithin⟩ := replayed_eq (q := p * f) hc hcr hc0
    (by rw [abs_mul]; rw [div_le_iff₀ hpos] at hlo; linarith)
    (by rw [abs_mul]; rw [mul_div_assoc', le_div_iff₀ hpos] at hhi; linarith)
  rw [factorReproduces, Context.mul, hfix]
  exact hwithin

theorem divisor_bounds (hc0 : c ≠ 0) (hd : d ≠ 0) (hlo : |p / c| ≤ 10 * |d|)
    (hhi : |d| ≤ 10 * |p / c|) : |c| ≤ 10 * |p / d| ∧ |p / d| ≤ 10 * |c| := by
  have hcpos := abs_pos.mpr hc0
  have hdpos := abs_pos.mpr hd
  rw [abs_div] at hlo hhi
  rw [abs_div, mul_div_assoc', le_div_iff₀ hdpos, div_le_iff₀ hdpos]
  rw [div_le_iff₀ hcpos] at hlo
  rw [mul_div_assoc', le_div_iff₀ hcpos] at hhi
  exact ⟨by linarith, by linarith⟩

theorem divisorReproduces_eq (hc : Fits 28 c) (hcr : InRange c) (hc0 : c ≠ 0)
    (hlo : |p / c| ≤ 10 * |d|) (hhi : |d| ≤ 10 * |p / c|) :
    divisorReproduces p c d =
      .ok (d ≠ 0 && GiPricing.withinTolerance (roundSig prec (p / d)) c) := by
  unfold divisorReproduces
  split_ifs with hd
  · simp [hd]
  · obtain ⟨h1, h2⟩ := divisor_bounds hc0 hd hlo hhi
    obtain ⟨hfix, hwithin⟩ := replayed_eq hc hcr hc0 h1 h2
    rw [Context.div, if_neg hd, hfix]
    simpa [hd, bind, Except.bind] using hwithin

theorem shortestFrom_eq {full : ℚ} {tried : ℚ → Except Signal Bool} {reproduces : ℚ → Bool}
    (hfull : InRange full) : ∀ l : List ℕ,
    (∀ k ∈ l, 0 < k ∧ tried (roundSig k full) = .ok (reproduces (roundSig k full))) →
    shortestFrom full tried l = .ok ((l.map (roundSig · full)).find? reproduces)
  | [], _ => rfl
  | k :: l, h => by
    obtain ⟨hk, htried⟩ := h k List.mem_cons_self
    have hrest := shortestFrom_eq hfull l fun j hj => h j (List.mem_cons_of_mem k hj)
    rw [shortestFrom, fix_digits hk hfull, List.map_cons]
    cases hr : reproduces (roundSig k full) with
    | true =>
      rw [List.find?_cons_of_pos hr]
      simp [bind, Except.bind, pure, Except.pure, htried, hr]
    | false =>
      rw [List.find?_cons_of_neg (by simp [hr]), ← hrest]
      simp [bind, Except.bind, htried, hr]

theorem shortestOperand_eq {tried : ℚ → Except Signal Bool} {reproduces : ℚ → Bool}
    (hr : InRange r) (hr0 : r ≠ 0)
    (h : ∀ x, |r| ≤ 10 * |x| → |x| ≤ 10 * |r| → tried x = .ok (reproduces x)) :
    shortestOperand (roundSig prec r) tried =
      .ok (GiPricing.shortestOperand (roundSig prec r) reproduces) := by
  refine shortestFrom_eq (hr.roundSig prec_pos) _ fun k hk => ?_
  have hk0 : 0 < k := (List.mem_range'_1.mp hk).1
  obtain ⟨h1, h2⟩ := candidate_bounds hk0 hr0
  exact ⟨hk0, h _ h1 h2⟩

theorem fix_found {reproduces : ℚ → Bool} {x : ℚ} (hr : InRange r)
    (h : GiPricing.shortestOperand (roundSig prec r) reproduces = some x) : ctx.fix x = .ok x := by
  obtain ⟨k, hk, hk', rfl, _⟩ := (shortestOperand_shortest h).digits
  have hfits : Fits prec (roundSig k (roundSig prec r)) :=
    (fits_roundSig hk _).mono (by simp only [maxOperandDigits] at hk'; simp only [prec]; omega)
  rw [fix_inRange ((hr.roundSig prec_pos).roundSig hk), hfits.roundSig_eq]

theorem shortestOperation_eq (hp : Fits 28 p) (hc : Fits 28 c) (hpr : InRange p) (hcr : InRange c)
    (hr : InRange (c / p)) (hp0 : p ≠ 0) (hc0 : c ≠ 0) :
    shortestOperation p c = .ok (GiPricing.shortestOperation p c) := by
  have hinv : InRange (p / c) := by
    rw [← inv_div]
    exact hr.inv
  have hfactor := shortestOperand_eq hr (div_ne_zero hc0 hp0)
    fun f h1 h2 => factorReproduces_eq hp0 hc hcr hc0 h1 h2
  have hdivisor := shortestOperand_eq hinv (div_ne_zero hp0 hc0)
    fun d h1 h2 => divisorReproduces_eq hc hcr hc0 h1 h2
  have hcp : ctx.div c p = .ok (roundSig prec (c / p)) := by
    rw [Context.div, if_neg hp0, fix_inRange hr]
  have hpc : ctx.div p c = .ok (roundSig prec (p / c)) := by
    rw [Context.div, if_neg hc0, fix_inRange hinv]
  unfold shortestOperation GiPricing.shortestOperation
  rw [hcp]
  simp only [bind, Except.bind, hfactor]
  cases hf : GiPricing.shortestOperand (roundSig prec (c / p)) fun f =>
      GiPricing.withinTolerance (roundSig prec (p * f)) c with
  | some f => simp only [fix_found hr hf, pure, Except.pure]
  | none =>
    simp only [hpc, hdivisor]
    cases hd : GiPricing.shortestOperand (roundSig prec (p / c)) fun d =>
        d ≠ 0 && GiPricing.withinTolerance (roundSig prec (p / d)) c with
    | some d => simp only [fix_found hinv hd, pure, Except.pure]
    | none => exact additionOf_eq hp hc hpr hcr

theorem fix_terminating (hr : InRange (p / q)) (h : GiPricing.terminatingQuotient p q = some r) :
    ctx.fix r = .ok r := by
  obtain ⟨hq, rfl⟩ := terminatingQuotient_eq_some h
  rw [GiPricing.terminatingQuotient_eq hq] at h
  split_ifs at h with hfits
  rw [fix_inRange hr, hfits.roundSig_eq]

theorem recoverOperation_eq (hp : Fits 28 p) (hc : Fits 28 c) (hpr : InRange p) (hcr : InRange c)
    (hr : InRange (c / p)) (forceAdd : Bool) :
    recoverOperation p c forceAdd = .ok (GiPricing.recoverOperation p c forceAdd) := by
  unfold recoverOperation GiPricing.recoverOperation
  by_cases hadd : (forceAdd || decide (p = 0)) = true
  · rw [if_pos hadd, if_pos hadd]
    exact additionOf_eq hp hc hpr hcr
  rw [if_neg hadd, if_neg hadd]
  have hp0 : p ≠ 0 := fun h => hadd (by simp [h])
  by_cases heq : c = p
  · rw [if_pos heq, if_pos heq]
  rw [if_neg heq, if_neg heq, terminatingQuotient_eq hr]
  simp only [bind, Except.bind]
  cases hf : GiPricing.terminatingQuotient c p with
  | some f => simp only [fix_terminating hr hf, pure, Except.pure]
  | none =>
    by_cases hc0 : c = 0
    · simp only [if_pos hc0]
      exact additionOf_eq hp hc hpr hcr
    have hinv : InRange (p / c) := by
      rw [← inv_div]
      exact hr.inv
    simp only [if_neg hc0, terminatingQuotient_eq hinv]
    cases hd : GiPricing.terminatingQuotient p c with
    | some d => simp only [fix_terminating hinv hd, pure, Except.pure]
    | none => exact shortestOperation_eq hp hc hpr hcr hr hp0 hc0

end GiPricing.Recovery
