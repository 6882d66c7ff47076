import GiPricing.Ladder.Basic

/-! # When a built ladder reconciles

The builder and the check agree on sources, display and every recovered operation. What is
left is a condition on the values the engine read.
-/

namespace GiPricing

open Decimal LadderRungName

/-- A number of the engine: 96 bits of mantissa at a scale of at most 28. -/
def EngineNumber (q : ℚ) : Prop := ∃ m : ℤ, |m| < 2 ^ 96 ∧ ∃ s ≤ 28, q = (m : ℚ) / 10 ^ s

theorem EngineNumber.fits {q : ℚ} (h : EngineNumber q) : Fits prec q := by
  obtain ⟨m, hm, s, _, rfl⟩ := h
  exact fits_div m s (hm.trans (by norm_num [prec]))

theorem EngineNumber.fits_sub {p q : ℚ} (hp : EngineNumber p) (hq : EngineNumber q) :
    Fits prec (p - q) := by
  obtain ⟨m, hm, s, hs, rfl⟩ := hp
  obtain ⟨n, hn, t, ht, rfl⟩ := hq
  have hscale : ∀ (k : ℤ) (u : ℕ), u ≤ 28 → (k : ℚ) / 10 ^ u =
      ((k * 10 ^ (28 - u) : ℤ) : ℚ) / 10 ^ 28 := by
    intro k u hu
    rw [div_eq_div_iff (by positivity) (by positivity)]
    push_cast
    rw [mul_assoc, ← pow_add, Nat.sub_add_cancel hu]
  have hbound : ∀ (k : ℤ) (u : ℕ), |k| < 2 ^ 96 → |k * 10 ^ (28 - u)| < 10 ^ 58 := by
    intro k u hk
    have hpow : (10 : ℤ) ^ (28 - u) ≤ 10 ^ 28 := pow_le_pow_right₀ (by norm_num) (by omega)
    calc |k * 10 ^ (28 - u)| = |k| * 10 ^ (28 - u) := by
          rw [abs_mul, abs_of_pos (by positivity : (0 : ℤ) < 10 ^ (28 - u))]
      _ ≤ 2 ^ 96 * 10 ^ 28 := mul_le_mul hk.le hpow (by positivity) (by positivity)
      _ < 10 ^ 58 := by norm_num
  rw [hscale m s hs, hscale n t ht, ← sub_div, ← Int.cast_sub]
  refine fits_div _ 28 ?_
  calc |m * 10 ^ (28 - s) - n * 10 ^ (28 - t)|
      ≤ |m * 10 ^ (28 - s)| + |n * 10 ^ (28 - t)| := abs_sub _ _
    _ < 10 ^ 58 + 10 ^ 58 := add_lt_add (hbound m s hm) (hbound n t hn)
    _ < 10 ^ prec := by norm_num [prec]

/-! ## Recovered operations explain their rung -/

theorem withinTolerance_self {q : ℚ} : withinTolerance q q = true := by
  unfold withinTolerance
  split_ifs with h
  · simpa using h
  · have hn : 0 ≤ roundSig prec (tolerance * roundSig prec |q|) :=
      roundSig_nonneg (mul_nonneg (by norm_num [tolerance]) (roundSig_nonneg (abs_nonneg q)))
    simpa using hn

theorem terminatingQuotient_eq_some {p q r : ℚ} (h : terminatingQuotient p q = some r) :
    q ≠ 0 ∧ r = p / q := by
  simp only [terminatingQuotient] at h
  split_ifs at h with h₁ h₂ h₃
  exact ⟨h₁, (Option.some.inj h).symm⟩

theorem shortestOperand_eq_some {full r : ℚ} {f : ℚ → Bool} (h : shortestOperand full f = some r) :
    f r = true := List.find?_some h

/-- The replayed operation reproduces its rung within the tolerance. -/
def Explains (previous current : ℚ) (operation : LadderOperation) : Prop :=
  (operation.kind = .multiply ∨ operation.kind = .divide ∨ operation.kind = .add) ∧
    ∃ replayed, replayStep previous operation = some replayed ∧ withinTolerance replayed current

/-- The operation recovered from two engine numbers explains the second from the first. -/
theorem recoverOperation_explains {p q : ℚ} (hp : EngineNumber p) (hq : EngineNumber q)
    (forceAdd : Bool) : Explains p q (recoverOperation p q forceAdd) := by
  have hadd : Explains p q (additionOf p q) := by
    refine ⟨Or.inr (Or.inr rfl), q, ?_, withinTolerance_self⟩
    simp [replayStep, additionOf, (hq.fits_sub hp).roundSig_eq, hq.fits.roundSig_eq]
  have hmul : ∀ f, p * f = q → Explains p q { kind := .multiply, factor := some f } := by
    intro f hf
    exact ⟨Or.inl rfl, q, by simp [replayStep, hf, hq.fits.roundSig_eq], withinTolerance_self⟩
  have hshort : Explains p q (shortestOperation p q) := by
    unfold shortestOperation
    split
    · rename_i f hf
      have hr := shortestOperand_eq_some hf
      exact ⟨Or.inl rfl, _, rfl, hr⟩
    · split
      · rename_i d hd
        have hr := shortestOperand_eq_some hd
        simp only [ne_eq, decide_not, Bool.and_eq_true, Bool.not_eq_true',
          decide_eq_false_iff_not] at hr
        exact ⟨Or.inr (Or.inl rfl), _, by simp [replayStep, Option.filter, hr.1], hr.2⟩
      · exact hadd
  unfold recoverOperation
  split
  · exact hadd
  rename_i h₁
  split
  · rename_i h₂; exact hmul 1 (by rw [mul_one, h₂])
  split
  · rename_i f hf
    obtain ⟨hp0, rfl⟩ := terminatingQuotient_eq_some hf
    exact hmul _ (mul_div_cancel₀ _ hp0)
  split
  · exact hadd
  rename_i hq0
  split
  · rename_i d hd
    obtain ⟨_, rfl⟩ := terminatingQuotient_eq_some hd
    have hp0 : p ≠ 0 := fun h => h₁ (by simp [h])
    have hne : p / q ≠ 0 := div_ne_zero hp0 hq0
    refine ⟨Or.inr (Or.inl rfl), q, ?_, withinTolerance_self⟩
    simp [replayStep, Option.filter, hne, div_div_cancel₀ hp0, hq.fits.roundSig_eq]
  · exact hshort

/-! ## The built ladder -/

/-- Inputs read from an engine result: engine numbers, a rounding for each rung present, and the
value after the clamps wherever a clamp is placed. -/
structure EngineInputs (inputs : LadderInputs) : Prop where
  exact : ∀ r v, inputs.exact r = some v → EngineNumber v
  rounding : ∀ r v, inputs.exact r = some v → (inputs.rounding r).isSome
  constraintsExact : ∀ v, inputs.constraintsExact = some v → EngineNumber v
  placed : inputs.placedBinding ≠ [] → inputs.constraintsExact.isSome

/-- The rung before is the one the builder's state was left by. -/
def Follows (prev : Option (ℚ × LadderRounding)) (before : Option LadderRung) : Prop :=
  before.map (fun r => (r.unrounded, r.rounding)) = prev.map fun e => (some e.1, some e.2)

variable {inputs : LadderInputs} {codes : List String}

theorem EngineInputs.cases_exact (h : EngineInputs inputs) (r : LadderRungName) :
    inputs.exact r = none ∨ ∃ v d, inputs.exact r = some v ∧ inputs.rounding r = some d := by
  cases hv : inputs.exact r with
  | none => exact Or.inl rfl
  | some v =>
    obtain ⟨d, hd⟩ := Option.isSome_iff_exists.mp (h.rounding r v hv)
    exact Or.inr ⟨v, d, rfl, hd⟩

section

attribute [local simp] buildFrom

theorem buildFrom_absent {r : LadderRungName} (hr : r ≠ constraints) (he : inputs.exact r = none)
    (prev : Option (ℚ × LadderRounding)) (rest : List LadderRungName) :
    buildFrom inputs codes prev (r :: rest) = buildFrom inputs codes prev rest := by
  simp [hr, he]

theorem buildFrom_present {r : LadderRungName} (hr : r ≠ constraints) {v : ℚ} {d : LadderRounding}
    (he : inputs.exact r = some v) (hd : inputs.rounding r = some d)
    (prev : Option (ℚ × LadderRounding)) (rest : List LadderRungName) :
    buildFrom inputs codes prev (r :: rest) =
      ⟨r, roundOnce v d, some v, some d, rungOperation r d v (prev.map Prod.fst)⟩
        :: buildFrom inputs codes (some (v, d)) rest := by
  simp [hr, he, hd]

theorem buildFrom_constraints_none (rest : List LadderRungName) :
    buildFrom inputs codes none (constraints :: rest) = buildFrom inputs codes none rest := by
  simp

theorem buildFrom_constraints_some (p : ℚ) (d : LadderRounding) (rest : List LadderRungName) :
    buildFrom inputs codes (some (p, d)) (constraints :: rest) =
      (constraintsRung inputs codes p d).2 ::
        buildFrom inputs codes (some ((constraintsRung inputs codes p d).1, d)) rest := by
  simp

end

theorem constraintsRung_fields (p : ℚ) (d : LadderRounding) :
    (constraintsRung inputs codes p d).2.rung = constraints ∧
    (constraintsRung inputs codes p d).2.unrounded = some (constraintsRung inputs codes p d).1 ∧
    (constraintsRung inputs codes p d).2.rounding = some d ∧
    (constraintsRung inputs codes p d).2.valueMinor =
      roundOnce (constraintsRung inputs codes p d).1 d := by
  unfold constraintsRung
  split <;> simp

theorem constraintsRung_engine (h : EngineInputs inputs) {p : ℚ} (hp : EngineNumber p)
    (d : LadderRounding) : EngineNumber (constraintsRung inputs codes p d).1 := by
  unfold constraintsRung
  split
  · rename_i side bound hb
    have hne : inputs.placedBinding ≠ [] := fun hn => by simp [hn] at hb
    obtain ⟨c, hc⟩ := Option.isSome_iff_exists.mp (h.placed hne)
    simpa [hc] using h.constraintsExact c hc
  · exact hp

/-- R1 and R2: the sources and the display of a built ladder agree with the inputs. -/
theorem sourceViolations_buildFrom (h : EngineInputs inputs)
    (hb : inputs.binding = inputs.placedBinding) (rs : List LadderRungName)
    {prev : Option (ℚ × LadderRounding)} {before : Option LadderRung} (hf : Follows prev before) :
    sourceViolations inputs before (buildFrom inputs codes prev rs) = [] := by
  induction rs generalizing prev before with
  | nil => rfl
  | cons r rest ih =>
    by_cases hr : r = constraints
    · subst hr
      cases prev with
      | none => rw [buildFrom_constraints_none]; exact ih hf
      | some e =>
        obtain ⟨p, d⟩ := e
        rw [buildFrom_constraints_some]
        obtain ⟨b, rfl, hbd⟩ := Option.map_eq_some_iff.mp hf
        obtain ⟨hbu, hbr⟩ := Prod.mk.inj hbd
        obtain ⟨h₁, h₂, h₃, h₄⟩ := @constraintsRung_fields inputs codes p d
        rw [sourceViolations, List.append_eq_nil_iff]
        refine ⟨?_, ih (by simp [Follows, h₂, h₃])⟩
        have hexp : (if inputs.binding ≠ [] then inputs.constraintsExact else some p) =
            some (constraintsRung inputs codes p d).1 := by
          unfold constraintsRung
          cases hl : inputs.placedBinding.getLast? with
          | none =>
            have hnil := List.getLast?_eq_none_iff.mp hl
            simp [hb, hnil]
          | some e =>
            have hne : inputs.placedBinding ≠ [] := fun hn => by simp [hn] at hl
            obtain ⟨c, hc⟩ := Option.isSome_iff_exists.mp (h.placed hne)
            simp [hb, hne, hc]
        simp [rungViolations, h₁, h₂, h₃, h₄, hbu, hbr, hexp]
    · rcases h.cases_exact r with he | ⟨v, d, he, hd⟩
      · rw [buildFrom_absent hr he]; exact ih hf
      · rw [buildFrom_present hr he hd, sourceViolations, List.append_eq_nil_iff]
        exact ⟨by simp [rungViolations, hr, he, hd], ih (by simp [Follows])⟩

theorem rungOperation_kind {r : LadderRungName} {d : LadderRounding}
    {p v : ℚ} (hp : EngineNumber p) (hv : EngineNumber v) :
    ∃ o, rungOperation r d v (some p) = some o ∧ o.kind ≠ .clamp ∧
      (o.kind = .round → r = payablePremium) := by
  unfold rungOperation
  have hrec := fun f => (recoverOperation_explains hp hv f).1
  refine ⟨_, rfl, ?_⟩
  split_ifs with h₁ h₂ h₃
  · exact ⟨by simp, fun _ => h₁⟩
  · rcases hrec true with h | h | h <;> simp [h]
  · exact ⟨by simp, by simp⟩
  · rcases hrec false with h | h | h <;> simp [h]

/-- R0 of the rungs holds of a built ladder. -/
theorem shapeViolations_buildFrom (h : EngineInputs inputs) (rs : List LadderRungName)
    (hlast : payablePremium ∉ rs.dropLast) {prev : Option (ℚ × LadderRounding)}
    (hp : ∀ e ∈ prev, EngineNumber e.1) {index count : ℕ} (hi : index = 0 ↔ prev = none)
    (hc : count = index + (buildFrom inputs codes prev rs).length) :
    shapeViolations count index (buildFrom inputs codes prev rs) = [] := by
  induction rs generalizing prev index with
  | nil => rfl
  | cons r rest ih =>
    have hrest : payablePremium ∉ rest.dropLast := fun hm => hlast (by
      cases rest with
      | nil => simp at hm
      | cons a t => exact List.mem_cons_of_mem _ hm)
    by_cases hr : r = constraints
    · subst hr
      cases prev with
      | none =>
        rw [buildFrom_constraints_none] at hc ⊢
        exact ih hrest hp hi hc
      | some e =>
        obtain ⟨p, d⟩ := e
        rw [buildFrom_constraints_some] at hc ⊢
        have hpos : index ≠ 0 := fun h0 => (nomatch hi.mp h0)
        rw [shapeViolations, @ih hrest (some ((constraintsRung inputs codes p d).1, d))
          (by simpa using constraintsRung_engine h (hp (p, d) rfl) d) (index + 1) (by simp)
          (by rw [hc, List.length_cons]; omega)]
        unfold constraintsRung
        split <;> simp
    · rcases h.cases_exact r with he | ⟨v, d, he, hd⟩
      · rw [buildFrom_absent hr he] at hc ⊢
        exact ih hrest hp hi hc
      · rw [buildFrom_present hr he hd] at hc ⊢
        rw [shapeViolations, @ih hrest (some (v, d)) (by simpa using h.exact r v he) (index + 1)
          (by simp) (by rw [hc, List.length_cons]; omega)]
        cases prev with
        | none => simp [rungOperation, hi.mpr rfl]
        | some e =>
          obtain ⟨o, ho, hk, hround⟩ := @rungOperation_kind r d _ _
            (hp e rfl) (h.exact r v he)
          have hfinal : o.kind = .round → index = count - 1 := fun hk' => by
            obtain rfl := hround hk'
            cases rest with
            | nil => rw [hc]; simp [buildFrom]
            | cons a t => exact absurd List.mem_cons_self hlast
          simp only [Option.map_some, ho, Option.isNone_some, Bool.and_false, Bool.false_eq_true,
            if_false, Option.any_some, hk, decide_false, Bool.false_and, List.append_nil,
            List.nil_append]
          split_ifs with hcond
          · simp only [ne_eq, decide_not, Bool.and_eq_true, decide_eq_true_eq, Bool.not_eq_true',
              decide_eq_false_iff_not] at hcond
            exact absurd (hfinal hcond.1) hcond.2
          · rfl

/-! ## Operations and replay -/

/-- The clamp recorded on `constraints` is what the engine did, and the payable keeps the value
of the rung before. -/
def Explained (inputs : LadderInputs) : Option ℚ → List LadderRungName → Prop
  | _, [] => True
  | prev, r :: rest =>
    if r = constraints then match prev with
      | none => Explained inputs none rest
      | some p => match inputs.placedBinding.getLast? with
        | none => Explained inputs (some p) rest
        | some (side, bound) => (inputs.constraintsExact = some bound ∧ side.farSide p bound) ∧
            Explained inputs inputs.constraintsExact rest
    else match inputs.exact r with
      | none => Explained inputs prev rest
      | some v => (r = payablePremium → ∀ p ∈ prev, v = p) ∧ Explained inputs (some v) rest

theorem stepViolations_constraints (h : EngineInputs inputs)
    (hb : inputs.binding = inputs.placedBinding) {b : LadderRung} {p : ℚ} {d : LadderRounding}
    (hu : b.unrounded = some p) :
    stepViolations inputs b (constraintsRung inputs codes p d).2 = [] ↔
      match inputs.placedBinding.getLast? with
      | none => True
      | some (side, bound) => inputs.constraintsExact = some bound ∧ side.farSide p bound := by
  unfold constraintsRung
  cases hl : inputs.placedBinding.getLast? with
  | none => simp [stepViolations, hu]
  | some e =>
    obtain ⟨side, bound⟩ := e
    have hne : inputs.placedBinding ≠ [] := fun hn => by simp [hn] at hl
    obtain ⟨c, hc⟩ := Option.isSome_iff_exists.mp (h.placed hne)
    simp [stepViolations, clampViolations, hu, hc, hb, hl]

theorem stepViolations_rung {b : LadderRung} {r : LadderRungName} {p v : ℚ} {d : LadderRounding}
    (hp : EngineNumber p) (hv : EngineNumber v) (hu : b.unrounded = some p) :
    stepViolations inputs b ⟨r, roundOnce v d, some v, some d, rungOperation r d v (some p)⟩ = [] ↔
      (r = payablePremium → v = p) := by
  have hrec : ∀ f, stepViolations inputs b
      ⟨r, roundOnce v d, some v, some d, some (recoverOperation p v f)⟩ = [] := by
    intro f
    obtain ⟨hk, x, hx, ht⟩ := recoverOperation_explains hp hv f
    rcases hk with hk | hk | hk <;> simp [stepViolations, hu, hk, hx, ht]
  by_cases hr : r = payablePremium
  · simp [rungOperation, hr, stepViolations, hu]
  · simp only [hr, false_imp_iff, iff_true]
    unfold rungOperation
    simp only [hr, if_false]
    split_ifs with h₁ h₂
    · exact hrec true
    · simp only [Bool.and_eq_true, decide_eq_true_eq] at h₂
      simp [stepViolations, hu, h₂.1]
    · exact hrec false

theorem stepViolations_buildFrom (h : EngineInputs inputs)
    (hb : inputs.binding = inputs.placedBinding) (rs : List LadderRungName) {p : ℚ}
    {d : LadderRounding} {b : LadderRung} (hp : EngineNumber p) (hu : b.unrounded = some p) :
    ((b :: buildFrom inputs codes (some (p, d)) rs).zip
        (buildFrom inputs codes (some (p, d)) rs)).flatMap (fun e => stepViolations inputs e.1 e.2)
      = [] ↔ Explained inputs (some p) rs := by
  induction rs generalizing p d b with
  | nil => simp [buildFrom, Explained]
  | cons r rest ih =>
    by_cases hr : r = constraints
    · subst hr
      have hf := @constraintsRung_fields inputs codes p d
      rw [buildFrom_constraints_some, List.zip_cons_cons, List.flatMap_cons, List.append_eq_nil_iff,
        stepViolations_constraints h hb hu, ih (constraintsRung_engine h hp d) hf.2.1]
      simp only [Explained, if_true]
      cases hl : inputs.placedBinding.getLast? with
      | none => simp [constraintsRung, hl]
      | some e =>
        have hne : inputs.placedBinding ≠ [] := fun hn => by simp [hn] at hl
        obtain ⟨c, hc⟩ := Option.isSome_iff_exists.mp (h.placed hne)
        simp [constraintsRung, hl, hc]
    · rcases h.cases_exact r with he | ⟨v, d', he, hd⟩
      · rw [buildFrom_absent hr he, ih hp hu]
        simp [Explained, hr, he]
      · have hv := h.exact r v he
        rw [buildFrom_present hr he hd, List.zip_cons_cons, List.flatMap_cons,
          List.append_eq_nil_iff, Option.map_some, stepViolations_rung hp hv hu, ih hv rfl]
        simp [Explained, hr, he]

theorem stepViolations_ladder (h : EngineInputs inputs)
    (hb : inputs.binding = inputs.placedBinding) (rs : List LadderRungName) :
    ((buildFrom inputs codes none rs).zip (buildFrom inputs codes none rs).tail).flatMap
        (fun e => stepViolations inputs e.1 e.2) = [] ↔ Explained inputs none rs := by
  induction rs with
  | nil => simp [buildFrom, Explained]
  | cons r rest ih =>
    by_cases hr : r = constraints
    · subst hr
      rw [buildFrom_constraints_none, ih]
      simp [Explained]
    · rcases h.cases_exact r with he | ⟨v, d, he, hd⟩
      · rw [buildFrom_absent hr he, ih]
        simp [Explained, hr, he]
      · rw [buildFrom_present hr he hd, List.tail_cons,
          stepViolations_buildFrom h hb rest (h.exact r v he) rfl]
        simp [Explained, hr, he]

/-- The replay of the operation recorded on rung `r`, which took `p` to `v`. -/
def carryStep (r : LadderRungName) (p v run : ℚ) : ℚ :=
  if r = payablePremium then run
  else if r ≠ iptAndFees ∧ v = p ∧ !r.isMultiply then run
  else (replayStep run (recoverOperation p v (r = iptAndFees))).getD run

/-- The exact value of the last rung met, and the first rung's value carried to it by the
recovered operations. -/
def carry (inputs : LadderInputs) :
    Option (ℚ × ℚ) → List LadderRungName → Option (ℚ × ℚ)
  | state, [] => state
  | state, r :: rest =>
    if r = constraints then
      carry inputs (state.map fun e => match inputs.placedBinding.getLast? with
        | none => e
        | some (_, bound) => (inputs.constraintsExact.getD 0, bound)) rest
    else match inputs.exact r with
      | none => carry inputs state rest
      | some v => carry inputs (match state with
          | none => some (v, v)
          | some (p, run) => some (v, carryStep r p v run)) rest

/-- A recovered operation can be replayed on any value. -/
theorem replayStep_recover (p v run : ℚ) (f : Bool) :
    (replayStep run (recoverOperation p v f)).isSome := by
  have hadd : (replayStep run (additionOf p v)).isSome := by simp [replayStep, additionOf]
  have hshort : (replayStep run (shortestOperation p v)).isSome := by
    unfold shortestOperation
    split
    · simp [replayStep]
    · split
      · rename_i d hd
        have hr := shortestOperand_eq_some hd
        simp only [ne_eq, decide_not, Bool.and_eq_true, Bool.not_eq_true',
          decide_eq_false_iff_not] at hr
        simp [replayStep, Option.filter, hr.1]
      · exact hadd
  unfold recoverOperation
  split
  · exact hadd
  rename_i h₁
  split
  · simp [replayStep]
  split
  · simp [replayStep]
  split
  · exact hadd
  rename_i hv
  split
  · rename_i d hd
    obtain ⟨_, rfl⟩ := terminatingQuotient_eq_some hd
    have hp0 : p ≠ 0 := fun h => h₁ (by simp [h])
    simp [replayStep, Option.filter, div_ne_zero hp0 hv]
  · exact hshort

theorem replayStep_rungOperation {r : LadderRungName} {d : LadderRounding} {p v run : ℚ} :
    (rungOperation r d v (some p)).bind (replayStep run) =
      some (carryStep r p v run) := by
  have hget : ∀ f, replayStep run (recoverOperation p v f) =
      some ((replayStep run (recoverOperation p v f)).getD run) := fun f => by
    obtain ⟨x, hx⟩ := Option.isSome_iff_exists.mp (replayStep_recover p v run f)
    rw [hx]; rfl
  unfold rungOperation carryStep
  by_cases h₁ : r = payablePremium
  · simp [h₁, replayStep]
  · by_cases h₂ : r = iptAndFees
    · simpa [h₁, h₂] using hget true
    · by_cases h₃ : v = p ∧ r.isMultiply = false
      · simp [h₁, h₂, h₃.1, h₃.2, replayStep]
      · have h₃' : ¬ (decide (v = p) && !r.isMultiply) = true := by simpa using h₃
        have h₄ : ¬ (r ≠ iptAndFees ∧ v = p ∧ (!r.isMultiply) = true) := fun hc =>
          h₃ ⟨hc.2.1, by simpa using hc.2.2⟩
        simp only [h₁, h₂, if_false, h₃', h₄, decide_false, Option.bind_some]
        exact hget false

theorem replay_buildFrom (h : EngineInputs inputs) (rs : List LadderRungName) {p run : ℚ}
    {d : LadderRounding} :
    (buildFrom inputs codes (some (p, d)) rs).foldl
        (fun running r => running.bind fun v => r.operation.bind (replayStep v)) (some run) =
      (carry inputs (some (p, run)) rs).map Prod.snd := by
  induction rs generalizing p run d with
  | nil => rfl
  | cons r rest ih =>
    by_cases hr : r = constraints
    · subst hr
      rw [buildFrom_constraints_some, List.foldl_cons]
      cases hl : inputs.placedBinding.getLast? with
      | none => simp [constraintsRung, hl, carry, replayStep, ih]
      | some e => simp [constraintsRung, hl, carry, replayStep, ih]
    · rcases h.cases_exact r with he | ⟨v, d', he, hd⟩
      · rw [buildFrom_absent hr he, ih]
        simp [carry, hr, he]
      · rw [buildFrom_present hr he hd, List.foldl_cons, Option.bind_some, Option.map_some,
          replayStep_rungOperation, ih]
        simp [carry, hr, he]

/-! ## The check of a built ladder -/

theorem buildFrom_none_eq_nil (h : EngineInputs inputs) (rs : List LadderRungName) :
    buildFrom inputs codes none rs = [] ↔ ∀ r ∈ rs, r ≠ constraints → inputs.exact r = none := by
  induction rs with
  | nil => simp [buildFrom]
  | cons r rest ih =>
    by_cases hr : r = constraints
    · subst hr
      rw [buildFrom_constraints_none, ih]
      simp
    · rcases h.cases_exact r with he | ⟨v, d, he, hd⟩
      · rw [buildFrom_absent hr he, ih]
        simp [he]
      · rw [buildFrom_present hr he hd]
        simp [hr, he]

theorem buildFrom_none_cons (h : EngineInputs inputs) {rs : List LadderRungName}
    {first : LadderRung} {rest : List LadderRung}
    (he : buildFrom inputs codes none rs = first :: rest) :
    first.operation = none ∧ ∃ v, first.unrounded = some v ∧
      replay v rest = (carry inputs none rs).map Prod.snd := by
  induction rs with
  | nil => simp [buildFrom] at he
  | cons r rs ih =>
    by_cases hr : r = constraints
    · subst hr
      rw [buildFrom_constraints_none] at he
      simpa [carry] using ih he
    · rcases h.cases_exact r with hv | ⟨v, d, hv, hd⟩
      · rw [buildFrom_absent hr hv] at he
        simpa [carry, hr, hv] using ih he
      · rw [buildFrom_present hr hv hd] at he
        obtain ⟨rfl, rfl⟩ := List.cons.inj he
        exact ⟨rfl, v, rfl, by rw [replay, replay_buildFrom h]; simp [carry, hr, hv]⟩

theorem rung_of_mem_buildFrom (rs : List LadderRungName) {prev : Option (ℚ × LadderRounding)}
    {x : LadderRung} (hx : x ∈ buildFrom inputs codes prev rs) :
    x.rung = constraints ∨ (inputs.exact x.rung).isSome := by
  induction rs generalizing prev with
  | nil => simp [buildFrom] at hx
  | cons r rest ih =>
    by_cases hr : r = constraints
    · subst hr
      cases prev with
      | none => rw [buildFrom_constraints_none] at hx; exact ih hx
      | some e =>
        rw [buildFrom_constraints_some] at hx
        rcases List.mem_cons.mp hx with rfl | hx
        · exact Or.inl (constraintsRung_fields e.1 e.2).1
        · exact ih hx
    · cases he : inputs.exact r with
      | none => rw [buildFrom_absent hr he] at hx; exact ih hx
      | some v =>
        cases hd : inputs.rounding r with
        | none =>
          have hskip : buildFrom inputs codes prev (r :: rest) = buildFrom inputs codes prev rest := by
            simp [buildFrom, hr, he, hd]
          rw [hskip] at hx; exact ih hx
        | some d =>
          rw [buildFrom_present hr he hd] at hx
          rcases List.mem_cons.mp hx with rfl | hx
          · exact Or.inr (by simp [he])
          · exact ih hx

theorem exists_rung {r : LadderRungName} (hr : r ≠ constraints) {v : ℚ} {d : LadderRounding}
    (hv : inputs.exact r = some v) (hd : inputs.rounding r = some d) {rs : List LadderRungName}
    (hm : r ∈ rs) (prev : Option (ℚ × LadderRounding)) :
    ∃ x ∈ buildFrom inputs codes prev rs, x.rung = r ∧ x.unrounded = some v ∧
      x.valueMinor = roundOnce v d := by
  induction rs generalizing prev with
  | nil => cases hm
  | cons a rest ih =>
    by_cases ha : r = a
    · subst ha
      rw [buildFrom_present hr hv hd]
      exact ⟨_, List.mem_cons_self, rfl, rfl, rfl⟩
    have hm' : r ∈ rest := (List.mem_cons.mp hm).resolve_left ha
    have hsub : ∃ l prev', buildFrom inputs codes prev (a :: rest) =
        l ++ buildFrom inputs codes prev' rest := by
      by_cases hc : a = constraints
      · subst hc
        cases prev with
        | none => exact ⟨[], none, buildFrom_constraints_none rest⟩
        | some e => exact ⟨[_], _, buildFrom_constraints_some e.1 e.2 rest⟩
      · cases he : inputs.exact a with
        | none => exact ⟨[], prev, buildFrom_absent hc he prev rest⟩
        | some x =>
          cases hx : inputs.rounding a with
          | none => exact ⟨[], prev, by simp [buildFrom, hc, he, hx]⟩
          | some dx => exact ⟨[_], _, buildFrom_present hc he hx prev rest⟩
    obtain ⟨l, prev', hl⟩ := hsub
    obtain ⟨x, hx, hrest⟩ := ih hm' prev'
    exact ⟨x, hl ▸ List.mem_append_right l hx, hrest⟩

theorem buildFrom_payable {v : ℚ} {d : LadderRounding} (he : inputs.exact payablePremium = some v)
    (hd : inputs.rounding payablePremium = some d) (init : List LadderRungName)
    (prev : Option (ℚ × LadderRounding)) :
    ∃ l o, buildFrom inputs codes prev (init ++ [payablePremium]) =
      l ++ [⟨payablePremium, roundOnce v d, some v, some d, o⟩] := by
  induction init generalizing prev with
  | nil =>
    exact ⟨[], _, by rw [List.nil_append, buildFrom_present (by decide) he hd]; rfl⟩
  | cons r rest ih =>
    by_cases hr : r = constraints
    · subst hr
      cases prev with
      | none => rw [List.cons_append, buildFrom_constraints_none]; exact ih none
      | some e =>
        obtain ⟨l, o, hl⟩ := ih (some ((constraintsRung inputs codes e.1 e.2).1, e.2))
        exact ⟨_ :: l, o, by rw [List.cons_append, buildFrom_constraints_some, hl]; rfl⟩
    · cases hv : inputs.exact r with
      | none =>
        rw [List.cons_append, buildFrom_absent hr hv]; exact ih prev
      | some x =>
        cases hx : inputs.rounding r with
        | none =>
          obtain ⟨l, o, hl⟩ := ih prev
          exact ⟨l, o, by rw [← hl]; simp [buildFrom, hr, hv, hx]⟩
        | some dx =>
          obtain ⟨l, o, hl⟩ := ih (some (x, dx))
          exact ⟨_ :: l, o, by rw [List.cons_append, buildFrom_present hr hv hx, hl]; rfl⟩

theorem carry_append (l m : List LadderRungName) (state : Option (ℚ × ℚ)) :
    carry inputs state (l ++ m) = carry inputs (carry inputs state l) m := by
  induction l generalizing state with
  | nil => rfl
  | cons r rest ih =>
    rw [List.cons_append, carry, carry]
    split
    · exact ih _
    · split
      · exact ih _
      · exact ih _

theorem carry_payable {v : ℚ} (he : inputs.exact payablePremium = some v)
    (init : List LadderRungName) (state : Option (ℚ × ℚ)) :
    ∃ run, (carry inputs state (init ++ [payablePremium])).map Prod.snd = some run := by
  rw [carry_append]
  cases carry inputs state init with
  | none => exact ⟨v, by simp [carry, he]⟩
  | some e => exact ⟨e.2, by simp [carry, he, carryStep]⟩

theorem clampShapeViolations_eq_nil {source : Option String} {c : ClampReading} :
    clampShapeViolations source c = [] ↔
      ((bindingSide c).isSome → some c.source = source) ∧
        (bindingSide c).isSome = c.inDisposition := by
  simp [clampShapeViolations]

theorem binding_eq_placed
    (h : ∀ c ∈ inputs.clamps, (bindingSide c).isSome → some c.source = inputs.clampSource) :
    inputs.binding = inputs.placedBinding := by
  unfold LadderInputs.binding LadderInputs.placedBinding
  generalize inputs.clamps = l at h
  induction l with
  | nil => rfl
  | cons c l ih =>
    have hl := ih fun x hx => h x (List.mem_cons_of_mem _ hx)
    by_cases hs : some c.source = inputs.clampSource
    · simp [hs, List.filterMap_cons, hl]
    · have hn : bindingSide c = none :=
        Option.not_isSome_iff_eq_none.mp fun hb => hs (h c List.mem_cons_self hb)
      simp [hs, hn, hl]

/-- What the check asks of the values a ladder is built from. -/
structure Reconciles (inputs : LadderInputs) : Prop where
  placed : ∀ c ∈ inputs.clamps, (bindingSide c).isSome → some c.source = inputs.clampSource
  disposed : ∀ c ∈ inputs.clamps, (bindingSide c).isSome = c.inDisposition
  explained : Explained inputs none rungOrder
  payable : ∃ v d run, inputs.exact payablePremium = some v ∧
    inputs.rounding payablePremium = some d ∧
    (carry inputs none rungOrder).map Prod.snd = some run ∧ roundOnce run d = roundOnce v d

/-- A built ladder passes the check exactly when it is empty or its values reconcile. -/
theorem ladderViolations_buildLadder (h : EngineInputs inputs)
    (hc : inputs.exact constraints = none) :
    ladderViolations (buildLadder inputs codes) inputs = [] ↔
      (∀ r, inputs.exact r = none) ∨ Reconciles inputs := by
  have hempty : buildLadder inputs codes = [] ↔ ∀ r, inputs.exact r = none := by
    rw [buildLadder, buildFrom_none_eq_nil h]
    constructor
    · intro hr r
      by_cases hr' : r = constraints
      · rw [hr', hc]
      · exact hr r (by cases r <;> simp [rungOrder, rungsBefore, rungsAfter]) hr'
    · exact fun hr r _ _ => hr r
  by_cases hnil : ∀ r, inputs.exact r = none
  · rw [hempty.mpr hnil]
    simp [ladderViolations, hnil]
  simp only [hnil, false_or]
  obtain ⟨first, rest, hl⟩ := List.exists_cons_of_ne_nil (hempty.not.mpr hnil)
  obtain ⟨hfirst, start, hstart, hreplay⟩ := buildFrom_none_cons h hl
  have hshape : shapeViolations (first :: rest).length 0 (first :: rest) = [] := by
    rw [← hl]
    exact @shapeViolations_buildFrom _ codes h rungOrder (by decide) none (by simp) 0 _ (by simp)
      (Nat.zero_add _).symm
  obtain ⟨last, hlast⟩ : ∃ last, (first :: rest).getLast (List.cons_ne_nil _ _) = last := ⟨_, rfl⟩
  have hlast' : (first :: rest).getLast? = some last :=
    hlast ▸ List.getLast?_eq_some_getLast _
  rw [hl]
  simp only [ladderViolations, List.flatten_cons, List.flatten_nil, List.append_nil,
    List.append_eq_nil_iff, hfirst, hshape, Option.isSome_none, Bool.false_eq_true, if_false,
    true_and, ite_eq_right_iff, reduceCtorEq, imp_false, not_not, hlast]
  cases hv : inputs.exact payablePremium with
  | none =>
    have hne : last.rung ≠ payablePremium := by
      intro he
      have hm : last ∈ buildLadder inputs codes := by
        rw [hl, ← hlast]; exact List.getLast_mem _
      rcases rung_of_mem_buildFrom rungOrder hm with h' | h'
      · rw [he] at h'; cases h'
      · rw [he, hv] at h'; cases h'
    refine ⟨fun hr => absurd hr.1 hne, fun hr => ?_⟩
    obtain ⟨v, _, _, hx, _⟩ := hr.payable
    rw [hv] at hx; cases hx
  | some v =>
    obtain ⟨d, hd⟩ := Option.isSome_iff_exists.mp (h.rounding _ v hv)
    obtain ⟨l, o, hlo⟩ := @buildFrom_payable _ codes _ _ hv hd rungOrder.dropLast none
    obtain rfl : last = ⟨payablePremium, roundOnce v d, some v, some d, o⟩ := by
      rw [← hl, buildLadder, show rungOrder = rungOrder.dropLast ++ [payablePremium] from rfl, hlo,
        List.getLast?_concat] at hlast'
      exact (Option.some.inj hlast').symm
    have hclamps : inputs.clamps.flatMap (clampShapeViolations inputs.clampSource) = [] ↔
        (∀ c ∈ inputs.clamps, (bindingSide c).isSome → some c.source = inputs.clampSource) ∧
          ∀ c ∈ inputs.clamps, (bindingSide c).isSome = c.inDisposition := by
      simp only [List.flatMap_eq_nil_iff, clampShapeViolations_eq_nil, forall_and]
    obtain ⟨run, hrun⟩ : ∃ run, (carry inputs none rungOrder).map Prod.snd = some run :=
      carry_payable hv rungOrder.dropLast none
    have hreplay' : replayViolations inputs first
        ⟨payablePremium, roundOnce v d, some v, some d, o⟩ rest = [] ↔
          roundOnce run d = roundOnce v d := by
      simp [replayViolations, hstart, hreplay, hrun, hv, hd]
    rw [hclamps, hreplay']
    constructor
    · rintro ⟨-, ⟨hplaced, hdisp⟩, -, hsteps, hround⟩
      have hb := binding_eq_placed hplaced
      refine ⟨hplaced, hdisp, ?_, v, d, run, hv, hd, hrun, hround⟩
      rw [← @stepViolations_ladder _ codes h hb, ← buildLadder, hl]
      exact hsteps
    · intro hr
      have hb := binding_eq_placed hr.placed
      obtain ⟨_, _, run', hv', hd', hrun', hround⟩ := hr.payable
      obtain rfl := Option.some.inj (hv.symm.trans hv')
      obtain rfl := Option.some.inj (hd.symm.trans hd')
      obtain rfl := Option.some.inj (hrun.symm.trans hrun')
      have hsteps := (@stepViolations_ladder _ codes h hb rungOrder).mpr hr.explained
      have hsrc := @sourceViolations_buildFrom inputs codes h hb rungOrder none none rfl
      rw [← buildLadder, hl] at hsteps hsrc
      exact ⟨rfl, ⟨hr.placed, hr.disposed⟩, hsrc, hsteps, hround⟩

/-! ## The values between -/

def presentOf (exact : LadderRungName → Option ℚ) (rs : List LadderRungName) :
    List (LadderRungName × ℚ) := rs.filterMap fun r => (exact r).map (r, ·)

theorem presentOf_append (exact : LadderRungName → Option ℚ) (l m : List LadderRungName) :
    presentOf exact (l ++ m) = presentOf exact l ++ presentOf exact m := List.filterMap_append

def lastValue (prev : Option ℚ) (l : List (LadderRungName × ℚ)) : Option ℚ :=
  (l.getLast?.map Prod.snd).or prev

@[simp] theorem lastValue_nil (prev : Option ℚ) : lastValue prev [] = prev := rfl

theorem lastValue_cons (prev : Option ℚ) (e : LadderRungName × ℚ) (l : List (LadderRungName × ℚ)) :
    lastValue prev (e :: l) = lastValue (some e.2) l := by
  cases l with
  | nil => rfl
  | cons a t => simp [lastValue, List.getLast?_eq_some_getLast]

theorem lastValue_append (prev : Option ℚ) (l m : List (LadderRungName × ℚ)) :
    lastValue prev (l ++ m) = lastValue (lastValue prev l) m := by
  induction l generalizing prev with
  | nil => rfl
  | cons e l ih => rw [List.cons_append, lastValue_cons, ih, lastValue_cons]

theorem explained_append {l m : List LadderRungName} (hc : constraints ∉ l)
    (hp : payablePremium ∉ l) {prev : Option ℚ} :
    Explained inputs prev (l ++ m) ↔
      Explained inputs (lastValue prev (presentOf inputs.exact l)) m := by
  induction l generalizing prev with
  | nil => rfl
  | cons r l ih =>
    simp only [List.mem_cons, not_or] at hc hp
    have hr : r ≠ constraints := Ne.symm hc.1
    have hr' : r ≠ payablePremium := Ne.symm hp.1
    cases he : inputs.exact r with
    | none => simp [Explained, presentOf, hr, he, ih hc.2 hp.2]
    | some v => simp [Explained, presentOf, hr, hr', he, ih hc.2 hp.2, lastValue_cons]

theorem explained_payable {v : ℚ} (hv : inputs.exact payablePremium = some v) {prev : Option ℚ} :
    Explained inputs prev [payablePremium] ↔ ∀ p ∈ prev, v = p := by
  simp [Explained, hv]

/-- Carry a value along rungs that have one. -/
def carryAlong (state : Option (ℚ × ℚ)) (l : List (LadderRungName × ℚ)) : Option (ℚ × ℚ) :=
  l.foldl (fun state e => some (match state with
    | none => (e.2, e.2)
    | some (p, run) => (e.2, carryStep e.1 p e.2 run))) state

theorem carry_constraints (state : Option (ℚ × ℚ)) (rest : List LadderRungName) :
    carry inputs state (constraints :: rest) =
      carry inputs (state.map fun e => match inputs.placedBinding.getLast? with
        | none => e
        | some (_, bound) => (inputs.constraintsExact.getD 0, bound)) rest := rfl

theorem carryAlong_append (state : Option (ℚ × ℚ)) (l m : List (LadderRungName × ℚ)) :
    carryAlong state (l ++ m) = carryAlong (carryAlong state l) m := List.foldl_append

theorem isSome_carryAlong {l : List (LadderRungName × ℚ)} {state : Option (ℚ × ℚ)}
    (h : l ≠ [] ∨ state.isSome) : (carryAlong state l).isSome := by
  induction l generalizing state with
  | nil => exact h.resolve_left (not_not.mpr rfl)
  | cons e l ih => exact ih (Or.inr rfl)

theorem carry_eq_carryAlong {l : List LadderRungName} (hc : constraints ∉ l)
    (state : Option (ℚ × ℚ)) :
    carry inputs state l = carryAlong state (presentOf inputs.exact l) := by
  induction l generalizing state with
  | nil => rfl
  | cons r l ih =>
    simp only [List.mem_cons, not_or] at hc
    have hr : r ≠ constraints := Ne.symm hc.1
    cases he : inputs.exact r with
    | none => simp [carry, presentOf, hr, he, ih hc.2]
    | some v => cases state <;> simp [carry, presentOf, carryAlong, hr, he, ih hc.2]

end GiPricing
