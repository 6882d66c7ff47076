import GiPricing.Score.Reconciled
import GiPricing.Score.Scoring

/-! # What a quoted result serves

A quoted result is meant to hold every required output and every rung that an output step
declares. A null is skipped by every reader on the way, so whether it is refused depends on
the type of the output, on the other rungs and on the check of the ladder.
-/

namespace GiPricing

open Decimal Failure LadderRungName

/-! ## The property -/

/-- The value a clamp step read, where its limits bind on the named source. -/
def movedFrom (result : Context) (source : Option String) (e : RatingStep × String × String) :
    Option ℚ :=
  match clampNumbers result e.1 with
  | .ok n => if (bindingSide (readingOf [] e n)).isSome && some e.2.1 = source then some n.1 else none
  | .error _ => none

/-- The engine's exact value of the source of a rung, before the first clamp that binds on it. -/
def engineValue (steps : List RatingStep) (result : Context) (r : LadderRungName) : Option ℚ :=
  (if some r = lastBefore steps result then
    (clampSteps steps).findSome? (movedFrom result (rungSource steps r)) else none).or
      (rungValue steps result r)

/-- A quoted result serves every required output and every declared rung; any other refusal of
the quote is coded. -/
def NullSafe (algorithm : RatingAlgorithmDraft) (result : Context) : Prop :=
  match buildScoringResult algorithm result with
  | .error e => ∃ refusal, e = .coded refusal
  | .ok scored => scored.outcome = .quoted →
    (∀ o ∈ algorithm.outputs, o.required = true →
      ∃ v, scored.output o.name = some v ∧ v ≠ .null) ∧
    ∀ r, r ≠ constraints → (outputStep algorithm.steps r.outputName).isSome →
      ∃ rung ∈ scored.premiumLadder, rung.rung = r ∧ ∃ v d,
        engineValue algorithm.steps result r = some v ∧ rungRounding algorithm.steps r = some d ∧
          rung.unrounded = some v ∧ rung.valueMinor = roundOnce v d

/-! ## The condition -/

def outputSource (steps : List RatingStep) (o : AlgorithmOutput) : Option (String × RoundSpec) :=
  (outputStep steps o.name).bind fun e => e.1.consumes.head?.map (·, e.2)

def outputExact (steps : List RatingStep) (result : Context) (o : AlgorithmOutput) : Option ℚ :=
  (outputSource steps o).bind fun e =>
    if o.readsExact then (exactRead result e.1).bind Number.toRat? else none

def outputValue (steps : List RatingStep) (result : Context) (o : AlgorithmOutput) : Value :=
  ((outputSource steps o).map fun e => result.read e.1).getD .null

def NotWhole (steps : List RatingStep) (result : Context) (o : AlgorithmOutput) : Bool :=
  integralTypes.contains o.type && (outputExact steps result o).any fun q => q.den ≠ 1

/-- An output whose writing fails without a code: money at a scale, a decimal of more digits than
the context, or a decimal with a value and no exact read. -/
def Unwritable (steps : List RatingStep) (result : Context) (o : AlgorithmOutput) : Bool :=
  (outputSource steps o).any fun e => match outputExact steps result o with
    | some q => !integralTypes.contains o.type &&
        if decimalFamily.contains o.type then
          decide (10 ^ prec ≤ |roundInt e.2.mode (q * 10 ^ e.2.dp)|)
        else e.2.dp ≠ 0
    | none => decimalFamily.contains o.type && result.read e.1 ≠ .null

/-- Every rung declares whole units and reports a name. -/
def RungsWhole (steps : List RatingStep) : Prop := ∀ r ∈ rungOrder, rungRefused steps r = false

/-- Every clamp read numbers, or nothing. -/
def ClampsRead (steps : List RatingStep) (result : Context) : Prop :=
  ∀ e ∈ clampSteps steps, result.read (beforeKey e.1.stepId) = .null ∨
    ∃ n, clampNumbers result e.1 = .ok n

/-- Nothing undesigned and nothing unreadable is met before the outputs. -/
structure Readable (algorithm : RatingAlgorithmDraft) (result : Context) : Prop where
  designed : ∀ s ∈ algorithm.steps, fired result s = true →
    ∀ code, s.violation? ≠ some (.error, code)
  whole : RungsWhole algorithm.steps
  clamps : ClampsRead algorithm.steps result

/-- The values of the ladder satisfy its check. -/
def LadderTallies (algorithm : RatingAlgorithmDraft) (result : Context) : Prop :=
  (∀ r, rungValue algorithm.steps result r = none) ∨
    ∃ declines codes reads, applyConstraints algorithm result = .ok (declines, codes) ∧
      ladderReads algorithm result codes = .ok reads ∧ Reconciles reads.finite

def Declines (algorithm : RatingAlgorithmDraft) (result : Context) : Prop :=
  ∃ s ∈ algorithm.steps, fired result s = true ∧ ∃ code, s.violation? = some (.decline, code)

/-- No null reaches a required output or a declared rung. -/
structure Complete (algorithm : RatingAlgorithmDraft) (result : Context) : Prop where
  outputs : ∀ o ∈ algorithm.outputs, o.required = true →
    outputValue algorithm.steps result o ≠ .null
  rungs : ∀ r, r ≠ constraints → (outputStep algorithm.steps r.outputName).isSome →
    (rungValue algorithm.steps result r).isSome

/-- The result is refused with a code, is declined, or is complete. -/
def Guarded (algorithm : RatingAlgorithmDraft) (result : Context) : Prop :=
  (∃ e, checkResult algorithm result = .error e) ∨
  (Readable algorithm result ∧
    (∀ o ∈ algorithm.outputs.takeWhile fun o => !NotWhole algorithm.steps result o,
      Unwritable algorithm.steps result o = false) ∧
    ((∃ o ∈ algorithm.outputs, NotWhole algorithm.steps result o = true) ∨
      ¬ LadderTallies algorithm result ∨
      ((∀ o ∈ algorithm.outputs, outputExact algorithm.steps result o = none →
          (outputValue algorithm.steps result o).servable = true) ∧
        (Declines algorithm result ∨ Complete algorithm result))))

/-- A result whose exact texts are the engine's own texts of the same names. -/
structure EngineTexts (steps : List RatingStep) (result : Context) : Prop where
  exact : ∀ name step rounding, outputStep steps name = some (step, rounding) →
    ∀ source, step.consumes.head? = some source → ∀ n, exactRead result source = some n →
      (∃ q, n = .finite q ∧ EngineNumber q) ∧ result.read source ≠ .null
  clamps : ∀ e ∈ clampSteps steps, ∀ n, clampNumbers result e.1 = .ok n → EngineNumber n.1

/-! ## The outputs -/

variable {steps : List RatingStep} {result : Context} {o : AlgorithmOutput}

theorem outputSource_eq_some {name : String} {rounding : RoundSpec} :
    outputSource steps o = some (name, rounding) ↔ ∃ step,
      outputStep steps o.name = some (step, rounding) ∧ step.consumes.head? = some name := by
  simp only [outputSource, Option.bind_eq_some_iff, Option.map_eq_some_iff, Prod.exists,
    Prod.mk.injEq]
  constructor
  · rintro ⟨step, r, hs, n, hn, rfl, rfl⟩; exact ⟨step, hs, hn⟩
  · rintro ⟨step, hs, hn⟩; exact ⟨step, rounding, hs, name, hn, rfl, rfl⟩

theorem EngineTexts.exactRead_eq (h : EngineTexts steps result) {name : String}
    {rounding : RoundSpec} (hs : outputSource steps o = some (name, rounding)) :
    exactRead result name = ((exactRead result name).bind Number.toRat?).map .finite := by
  obtain ⟨step, hstep, hname⟩ := outputSource_eq_some.mp hs
  cases he : exactRead result name with
  | none => rfl
  | some n =>
    obtain ⟨⟨q, rfl, _⟩, _⟩ := h.exact _ step rounding hstep name hname n he
    rfl

theorem EngineTexts.rungNumbers (h : EngineTexts steps result) : RungNumbers steps result := by
  intro r n hn
  obtain ⟨name, hname, hread⟩ := Option.bind_eq_some_iff.mp hn
  unfold rungSource at hname
  split at hname
  · cases hname
  · obtain ⟨⟨step, rounding⟩, hstep, hsource⟩ := Option.bind_eq_some_iff.mp hname
    exact (h.exact _ step rounding hstep name hsource n hread).1

/-- What is served for an output that can be written. -/
def servedValue (steps : List RatingStep) (result : Context) (o : AlgorithmOutput) : Option Value :=
  (outputSource steps o).bind fun e => match outputExact steps result o with
    | some q => some <| if integralTypes.contains o.type then .int q.num
        else if decimalFamily.contains o.type then
          .text (fixedText (roundInt e.2.mode (q * 10 ^ e.2.dp)) e.2.dp)
        else .int (roundInt e.2.mode q)
    | none => result e.1

theorem roundable_of_engineNumber {q : ℚ} (h : EngineNumber q) (mode : RoundingMode) :
    roundable mode (.finite q) = .ok q := by
  obtain ⟨m, hm, s, _, rfl⟩ := h
  have hq : |(m : ℚ) / 10 ^ s| < 2 ^ 96 := by
    rw [abs_div, abs_of_pos (by positivity : (0 : ℚ) < 10 ^ s)]
    refine (div_le_self (abs_nonneg _) (one_le_pow₀ (by norm_num))).trans_lt ?_
    exact_mod_cast hm
  have hd := abs_roundInt_sub_lt mode ((m : ℚ) / 10 ^ s)
  have hr : |(roundInt mode ((m : ℚ) / 10 ^ s) : ℚ)| < 2 ^ 96 + 1 := by
    have htri := abs_add_le ((roundInt mode ((m : ℚ) / 10 ^ s) : ℚ) - m / 10 ^ s) (m / 10 ^ s)
    rw [sub_add_cancel] at htri
    linarith
  have hlt : |roundInt mode ((m : ℚ) / 10 ^ s)| < 10 ^ prec := by
    have : |roundInt mode ((m : ℚ) / 10 ^ s)| < 2 ^ 96 + 1 := by exact_mod_cast hr
    exact this.trans (by norm_num [prec])
  simp [roundable, hlt]

theorem buildOutput_eq (h : EngineTexts steps result) {name : String} {rounding : RoundSpec}
    (hs : outputSource steps o = some (name, rounding)) :
    buildOutput steps result o = match outputExact steps result o with
      | some q =>
        if integralTypes.contains o.type then
          (integralValue o (.finite q)).map fun k => some (.int k)
        else if decimalFamily.contains o.type then
          (roundToText rounding (.finite q)).map fun t => some (.text t)
        else (roundMinor rounding (.finite q)).map fun k => some (.int k)
      | none => match result name with
        | none => .ok none
        | some v =>
          if decimalFamily.contains o.type && v ≠ .null then .error .valueError
          else .ok (some v) := by
  obtain ⟨step, hstep, hname⟩ := outputSource_eq_some.mp hs
  have hexact : (if o.readsExact then exactRead result name else none) =
      (outputExact steps result o).map .finite := by
    simp only [outputExact, hs, Option.bind_some]
    split
    · exact h.exactRead_eq hs
    · rfl
  simp only [buildOutput, hstep, hname, hexact]
  cases outputExact steps result o <;> rfl

theorem buildOutput_notWhole (h : EngineTexts steps result)
    (hn : NotWhole steps result o = true) :
    ∃ refusal, buildOutput steps result o = .error (.coded refusal) := by
  simp only [NotWhole, Bool.and_eq_true, Option.any_eq_true, decide_eq_true_eq] at hn
  obtain ⟨hi, q, hq, hden⟩ := hn
  obtain ⟨⟨name, rounding⟩, hs, _⟩ := Option.bind_eq_some_iff.mp hq
  refine ⟨.typeMismatch o.name o.type, ?_⟩
  simp only [buildOutput_eq h hs, hq, hi, if_true, integralValue, hden, if_false, Except.map]

theorem buildOutput_unwritable (h : EngineTexts steps result)
    (hu : Unwritable steps result o = true) :
    ∃ e, buildOutput steps result o = .error e ∧ ∀ refusal, e ≠ .coded refusal := by
  simp only [Unwritable, Option.any_eq_true] at hu
  obtain ⟨⟨name, rounding⟩, hs, hu⟩ := hu
  rw [buildOutput_eq h hs]
  cases hq : outputExact steps result o with
  | some q =>
    simp only [hq, Bool.and_eq_true, Bool.not_eq_true'] at hu
    obtain ⟨hi, hu⟩ := hu
    simp only [hi, Bool.false_eq_true, if_false]
    split at hu
    · rename_i hf
      simp only [decide_eq_true_eq] at hu
      exact ⟨.arithmetic, by simp only [hf, if_true, roundToText, not_lt.mpr hu, if_false,
        Except.map], by simp⟩
    · rename_i hf
      simp only [decide_eq_true_eq] at hu
      exact ⟨.notImplemented, by simp only [hf, roundMinor, hu, ne_eq, not_false_eq_true, if_true,
        Bool.false_eq_true, if_false, Except.map], by simp⟩
  | none =>
    simp only [hq, Bool.and_eq_true, decide_eq_true_eq] at hu
    obtain ⟨hf, hv⟩ := hu
    cases hr : result name with
    | none => simp [Context.read, hr] at hv
    | some v =>
      have hv' : v ≠ .null := by simpa [Context.read, hr] using hv
      exact ⟨.valueError, by simp only [hf, hv', ne_eq, not_false_eq_true, decide_true,
        Bool.and_self, if_true], by simp⟩

theorem buildOutput_written (h : EngineTexts steps result)
    (hn : NotWhole steps result o = false) (hu : Unwritable steps result o = false) :
    buildOutput steps result o = .ok (servedValue steps result o) := by
  cases hs : outputSource steps o with
  | none =>
    have hserved : servedValue steps result o = none := by simp [servedValue, hs]
    rw [hserved]
    unfold buildOutput
    cases hstep : outputStep steps o.name with
    | none => rfl
    | some e =>
      have hname : e.1.consumes.head? = none := by simpa [outputSource, hstep] using hs
      simp only [hname]
  | some e =>
    obtain ⟨name, rounding⟩ := e
    rw [buildOutput_eq h hs, servedValue, hs, Option.bind_some]
    simp only [Unwritable, hs, Option.any_some] at hu
    cases hq : outputExact steps result o with
    | some q =>
      simp only [NotWhole, hq, Option.any_some] at hn
      simp only [hq] at hu
      by_cases hi : integralTypes.contains o.type = true
      · have hden : q.den = 1 := by
          simpa only [hi, Bool.true_and, decide_eq_false_iff_not, ne_eq, not_not] using hn
        simp only [hi, if_true, integralValue, hden, Except.map]
      · simp only [hi, Bool.false_eq_true, if_false]
        simp only [Bool.not_eq_true] at hi
        simp only [hi, Bool.not_false, Bool.true_and] at hu
        by_cases hf : decimalFamily.contains o.type = true
        · have hlt : |roundInt rounding.mode (q * 10 ^ rounding.dp)| < 10 ^ prec := by
            simpa only [hf, if_true, decide_eq_false_iff_not, not_le] using hu
          simp only [hf, if_true, roundToText, hlt, Except.map]
        · have hdp : rounding.dp = 0 := by simpa only [hf, if_false, decide_eq_false_iff_not,
            not_not, Bool.false_eq_true] using hu
          obtain ⟨step, hstep, hname⟩ := outputSource_eq_some.mp hs
          have hnum : EngineNumber q := by
            simp only [outputExact, hs, Option.bind_some] at hq
            split at hq
            · obtain ⟨n, hread, hq'⟩ := Option.bind_eq_some_iff.mp hq
              obtain ⟨⟨q', rfl, hnum⟩, _⟩ := h.exact _ step rounding hstep name hname n hread
              exact Option.some.inj hq' ▸ hnum
            · cases hq
          simp only [hf, if_false, roundMinor, hdp, ne_eq, not_true, Bool.false_eq_true,
            roundable_of_engineNumber hnum, Except.map]
    | none =>
      simp only [hq] at hu
      cases hr : result name with
      | none => rfl
      | some v =>
        simp only [Context.read, hr, Option.getD_some] at hu
        simp only [hu, Bool.false_eq_true, if_false]

theorem servedValue_ne_null (h : EngineTexts steps result) :
    (∃ v, servedValue steps result o = some v ∧ v ≠ .null) ↔ outputValue steps result o ≠ .null := by
  cases hs : outputSource steps o with
  | none => simp [servedValue, outputValue, hs]
  | some e =>
    obtain ⟨name, rounding⟩ := e
    simp only [servedValue, outputValue, hs, Option.bind_some, Option.map_some, Option.getD_some]
    cases hq : outputExact steps result o with
    | some q =>
      obtain ⟨step, hstep, hname⟩ := outputSource_eq_some.mp hs
      have hne : result.read name ≠ .null := by
        simp only [outputExact, hs, Option.bind_some] at hq
        split at hq
        · obtain ⟨n, hread, _⟩ := Option.bind_eq_some_iff.mp hq
          exact (h.exact _ step rounding hstep name hname n hread).2
        · cases hq
      simp only [Option.some.injEq, exists_eq_left', hne, ne_eq, not_false_eq_true, iff_true]
      split
      · simp
      · split <;> simp
    | none =>
      cases hr : result name <;> simp [Context.read, hr]

theorem servedValue_servable :
    (∀ v, servedValue steps result o = some v → v.servable = true) ↔
      (outputExact steps result o = none → (outputValue steps result o).servable = true) := by
  cases hs : outputSource steps o with
  | none => simp [servedValue, outputValue, hs, Value.servable]
  | some e =>
    simp only [servedValue, outputValue, hs, Option.bind_some, Option.map_some, Option.getD_some]
    cases hq : outputExact steps result o with
    | some q =>
      simp only [Option.some.injEq, forall_eq', reduceCtorEq, false_imp_iff, iff_true]
      split
      · rfl
      · split <;> rfl
    | none =>
      cases hr : result e.1 <;> simp [Context.read, hr, Value.servable]

theorem buildOutputs_written {algorithm : RatingAlgorithmDraft}
    (h : EngineTexts algorithm.steps result)
    (hn : ∀ o ∈ algorithm.outputs, NotWhole algorithm.steps result o = false)
    (hu : ∀ o ∈ algorithm.outputs, Unwritable algorithm.steps result o = false) :
    buildOutputs algorithm result = .ok (algorithm.outputs.filterMap fun o =>
      (servedValue algorithm.steps result o).map (o.name, ·)) := by
  have hm : (algorithm.outputs.mapM fun o =>
      (buildOutput algorithm.steps result o).map fun v => v.map (o.name, ·)) =
        .ok (algorithm.outputs.map fun o =>
          (servedValue algorithm.steps result o).map (o.name, ·)) := by
    rw [mapM_eq_ok, List.forall₂_map_right_iff, List.forall₂_same]
    intro o ho
    rw [buildOutput_written h (hn o ho) (hu o ho)]
    rfl
  rw [buildOutputs, hm]
  simp only [Except.map, List.reduceOption, List.filterMap_map, Function.comp_def, id]

theorem buildOutputs_failed {algorithm : RatingAlgorithmDraft} {pre post : List AlgorithmOutput}
    {e : Raised} (h : EngineTexts algorithm.steps result)
    (hl : algorithm.outputs = pre ++ o :: post)
    (hpre : ∀ x ∈ pre, NotWhole algorithm.steps result x = false ∧
      Unwritable algorithm.steps result x = false)
    (ho : buildOutput algorithm.steps result o = .error e) :
    buildOutputs algorithm result = .error e := by
  have hm : (algorithm.outputs.mapM fun o =>
      (buildOutput algorithm.steps result o).map fun v => v.map (o.name, ·)) = .error e := by
    refine mapM_eq_error.mpr ⟨pre, o, post, hl, fun x hx => ?_, by rw [ho]; rfl⟩
    rw [buildOutput_written h (hpre x hx).1 (hpre x hx).2]
    exact ⟨_, rfl⟩
  rw [buildOutputs, hm]
  rfl

/-! ## The ladder -/

theorem clampReading_cases {codes : List String} {e : RatingStep × String × String}
    {x : Option ClampReading} (h : clampReading result codes e.1 e.2.1 e.2.2 = .ok x) :
    (result.read (beforeKey e.1.stepId) = .null ∧ x = none) ∨
      ∃ n, clampNumbers result e.1 = .ok n ∧ x = some (readingOf codes e n) := by
  unfold clampReading at h
  split at h
  · rename_i hnull
    exact Or.inl ⟨hnull, (Except.ok.inj h).symm⟩
  · obtain ⟨n, hn, hx⟩ := map_eq_ok.mp h
    exact Or.inr ⟨n, hn, hx.symm⟩

theorem clampNumbers_of_null {s : RatingStep} (h : result.read (beforeKey s.stepId) = .null) :
    clampNumbers result s = .error .arithmetic := by
  simp [clampNumbers, h, orderedDecimal, Value.asDecimal, bind, Except.bind]

theorem clampReadings_cases {algorithm : RatingAlgorithmDraft} {codes : List String}
    {readings : List ClampReading} (h : clampReadings algorithm result codes = .ok readings) :
    (∀ c ∈ readings, ∃ e ∈ clampSteps algorithm.steps, Reads result codes e c) ∧
      ∀ source, (bindingFirst readings source).map ClampReading.before =
        (clampSteps algorithm.steps).findSome? (movedFrom result source) := by
  obtain ⟨os, hos, rfl⟩ := map_eq_ok.mp h
  replace hos := mapM_eq_ok.mp hos
  clear h
  generalize clampSteps algorithm.steps = l at hos
  induction hos with
  | nil => exact ⟨fun c hc => absurd hc List.not_mem_nil, fun _ => rfl⟩
  | @cons e x l os he _ ih =>
    rcases clampReading_cases he with ⟨hnull, rfl⟩ | ⟨n, hn, rfl⟩
    · refine ⟨fun c hc => ?_, fun source => ?_⟩
      · obtain ⟨e', he', hr⟩ := ih.1 c hc
        exact ⟨e', List.mem_cons_of_mem _ he', hr⟩
      · have hskip : movedFrom result source e = none := by
          simp [movedFrom, clampNumbers_of_null hnull]
        rw [List.findSome?_cons, hskip]
        exact ih.2 source
    · refine ⟨fun c hc => ?_, fun source => ?_⟩
      · rcases List.mem_cons.mp hc with rfl | hc
        · exact ⟨e, List.mem_cons_self, n, hn, rfl⟩
        · obtain ⟨e', he', hr⟩ := ih.1 c hc
          exact ⟨e', List.mem_cons_of_mem _ he', hr⟩
      · -- the reason codes take no part in what a clamp compares
        have hside : bindingSide (readingOf codes e n) = bindingSide (readingOf [] e n) := rfl
        have hcons : (some (readingOf codes e n) :: os).reduceOption =
            readingOf codes e n :: os.reduceOption := rfl
        rw [List.findSome?_cons, hcons, bindingFirst, List.find?_cons]
        simp only [movedFrom, hn, hside]
        by_cases hb : ((bindingSide (readingOf [] e n)).isSome && some e.2.1 = source) = true
        · have hb' : ((bindingSide (readingOf [] e n)).isSome &&
              some (readingOf codes e n).source = source) = true := hb
          simp only [hb, hb', if_true, Option.map_some]
          rfl
        · have hb' : ((bindingSide (readingOf [] e n)).isSome &&
              some (readingOf codes e n).source = source) = false := Bool.eq_false_iff.mpr hb
          simp only [hb, hb']
          exact ih.2 source

theorem exact_eq_engineValue {algorithm : RatingAlgorithmDraft} {codes : List String}
    {readings : List ClampReading} (h : clampReadings algorithm result codes = .ok readings)
    (r : LadderRungName) :
    (inputsOf algorithm.steps result readings).exact r = engineValue algorithm.steps result r := by
  rw [exact_inputsOf, engineValue]
  by_cases hr : some r = lastBefore algorithm.steps result
  · rw [← hr, Option.bind_some, if_pos rfl, ← (clampReadings_cases h).2]
    cases bindingFirst readings (rungSource algorithm.steps r) <;> simp [Option.filter]
  · rw [if_neg hr]
    cases bindingFirst readings ((lastBefore algorithm.steps result).bind
      (rungSource algorithm.steps)) <;> simp [Option.filter, hr]

/-! ## The scored result -/

theorem checkResult_coded {algorithm : RatingAlgorithmDraft} {e : Raised}
    (h : checkResult algorithm result = .error e) : ∃ refusal, e = .coded refusal := by
  have hfirst : ∀ f : RatingStep → Option Refusal, ∀ e,
      refuseFirst algorithm.steps f = .error e → ∃ refusal, e = .coded refusal := by
    intro f e h
    unfold refuseFirst at h
    split at h
    · exact ⟨_, (Except.error.inj h).symm⟩
    · cases h
  unfold checkResult at h
  cases hs : checkModelCallSentinel result with
  | error e' =>
    rw [hs] at h
    obtain rfl : e' = e := Except.error.inj h
    unfold checkModelCallSentinel at hs
    split at hs
    · exact ⟨_, (Except.error.inj hs).symm⟩
    · cases hs
  | ok _ =>
    rw [hs] at h
    cases hu : checkUnparseableCells algorithm result with
    | error e' =>
      simp only [hu, bind, Except.bind] at h
      exact Except.error.inj h ▸ hfirst _ _ hu
    | ok _ =>
      simp only [hu, bind, Except.bind] at h
      exact hfirst _ _ h

theorem applyConstraints_cases (algorithm : RatingAlgorithmDraft) (result : Context) :
    (applyConstraints algorithm result = .error .notImplemented ∧ ∃ s ∈ algorithm.steps,
      fired result s = true ∧ ∃ code, s.violation? = some (.error, code)) ∨
    ∃ declines codes, applyConstraints algorithm result = .ok (declines, codes) ∧
      (∀ s ∈ algorithm.steps, fired result s = true → ∀ code, s.violation? ≠ some (.error, code)) ∧
      (declines ≠ [] ↔ Declines algorithm result) := by
  have hmem : ∀ v, (((algorithm.steps.filter (fired result)).filterMap
      RatingStep.violation?).filter fun e => e.1 = v).map Prod.snd ≠ [] ↔
      ∃ s ∈ algorithm.steps, fired result s = true ∧ ∃ code, s.violation? = some (v, code) := by
    intro v
    have hne : ∀ l : List String, l ≠ [] ↔ ∃ x, x ∈ l := fun l =>
      ⟨List.exists_mem_of_ne_nil l, fun ⟨x, hx⟩ => List.ne_nil_of_mem hx⟩
    rw [hne]
    simp only [List.mem_map, List.mem_filter, List.mem_filterMap, decide_eq_true_eq]
    constructor
    · rintro ⟨code, ⟨v', _⟩, ⟨⟨s, ⟨hs, hf⟩, hv⟩, rfl⟩, rfl⟩; exact ⟨s, hs, hf, _, hv⟩
    · rintro ⟨s, hs, hf, code, hv⟩; exact ⟨code, _, ⟨⟨s, ⟨hs, hf⟩, hv⟩, rfl⟩, rfl⟩
  simp only [applyConstraints]
  split
  · rename_i hnil
    refine Or.inr ⟨_, _, rfl, fun s hs hf code hv => ?_, hmem .decline⟩
    exact (hmem .error).mpr ⟨s, hs, hf, code, hv⟩ hnil
  · rename_i hne
    exact Or.inl ⟨rfl, (hmem .error).mp hne⟩

theorem orderedDecimal_error {v : Value} {e : Raised} (h : orderedDecimal v = .error e) :
    e = .arithmetic := by
  unfold orderedDecimal at h
  split at h
  · cases h
  · exact (Except.error.inj h).symm

theorem optionalDecimal_error {v : Value} {e : Raised} (h : optionalDecimal v = .error e) :
    e = .arithmetic := by
  unfold optionalDecimal at h
  split at h
  · cases h
  · cases ho : orderedDecimal v with
    | error e' =>
      rw [ho] at h
      exact (Except.error.inj h) ▸ orderedDecimal_error ho
    | ok q => rw [ho] at h; cases h

theorem clampNumbers_error {s : RatingStep} {e : Raised} (h : clampNumbers result s = .error e) :
    e = .arithmetic := by
  unfold clampNumbers at h
  cases hb : orderedDecimal (result.read (beforeKey s.stepId)) with
  | error e' =>
    simp only [hb, bind, Except.bind] at h
    exact (Except.error.inj h) ▸ orderedDecimal_error hb
  | ok b =>
    cases hl : optionalDecimal (result.read (minKey s.stepId)) with
    | error e' =>
      simp only [hb, hl, bind, Except.bind] at h
      exact (Except.error.inj h) ▸ optionalDecimal_error hl
    | ok l =>
      cases hm : optionalDecimal (result.read (maxKey s.stepId)) with
      | error e' =>
        simp only [hb, hl, hm, bind, Except.bind] at h
        exact (Except.error.inj h) ▸ optionalDecimal_error hm
      | ok m => simp [hb, hl, hm, bind, Except.bind, pure, Except.pure] at h

theorem clampReadings_failed {algorithm : RatingAlgorithmDraft} {codes : List String} {e : Raised}
    (h : clampReadings algorithm result codes = .error e) :
    e = .arithmetic ∧ ¬ ClampsRead algorithm.steps result := by
  unfold clampReadings at h
  cases hm : (clampSteps algorithm.steps).mapM fun e =>
      clampReading result codes e.1 e.2.1 e.2.2 with
  | ok os => rw [hm] at h; cases h
  | error e' =>
    rw [hm] at h
    obtain rfl : e' = e := Except.error.inj h
    obtain ⟨pre, a, post, hl, _, ha⟩ := mapM_eq_error.mp hm
    unfold clampReading at ha
    split at ha
    · cases ha
    · rename_i hnull
      cases hn : clampNumbers result a.1 with
      | ok n => rw [hn] at ha; cases ha
      | error e'' =>
        rw [hn] at ha
        obtain rfl : e'' = e' := Except.error.inj ha
        refine ⟨clampNumbers_error hn, fun hc => ?_⟩
        rcases hc a (hl ▸ List.mem_append_right pre List.mem_cons_self) with h' | ⟨n, h'⟩
        · exact hnull h'
        · rw [hn] at h'; cases h'

theorem clampsRead_of_ok {algorithm : RatingAlgorithmDraft} {codes : List String}
    {readings : List ClampReading} (h : clampReadings algorithm result codes = .ok readings) :
    ClampsRead algorithm.steps result := by
  obtain ⟨os, hos, rfl⟩ := map_eq_ok.mp h
  replace hos := mapM_eq_ok.mp hos
  clear h
  unfold ClampsRead
  generalize clampSteps algorithm.steps = l at hos
  induction hos with
  | nil => intro e he; cases he
  | @cons a x l os ha _ ih =>
    intro e he
    rcases List.mem_cons.mp he with rfl | he
    · rcases clampReading_cases ha with ⟨hnull, _⟩ | ⟨n, hn, _⟩
      · exact Or.inl hnull
      · exact Or.inr ⟨n, hn⟩
    · exact ih e he

theorem ladderReads_cases (algorithm : RatingAlgorithmDraft) (result : Context)
    (codes : List String) :
    (RungsWhole algorithm.steps ∧ ClampsRead algorithm.steps result ∧
      ∃ readings, clampReadings algorithm result codes = .ok readings ∧
        ladderReads algorithm result codes = .ok (readsOf algorithm.steps result readings)) ∨
    (¬ (RungsWhole algorithm.steps ∧ ClampsRead algorithm.steps result) ∧
      ∃ e, ladderReads algorithm result codes = .error e ∧ ∀ refusal, e ≠ .coded refusal) := by
  have hwhole : rungOrder.any (rungRefused algorithm.steps) = true ↔
      ¬ RungsWhole algorithm.steps := by
    simp [RungsWhole, List.any_eq_true]
  by_cases hw : RungsWhole algorithm.steps
  · have hany := hwhole.not_left.mpr hw
    cases hc : clampReadings algorithm result codes with
    | error e =>
      obtain ⟨rfl, hn⟩ := clampReadings_failed hc
      refine Or.inr ⟨fun h => hn h.2, .arithmetic, ?_, by simp⟩
      rw [ladderReads, if_neg hany, hc]
      rfl
    | ok readings =>
      refine Or.inl ⟨hw, clampsRead_of_ok hc, readings, rfl, ?_⟩
      rw [ladderReads, if_neg hany, hc]
      rfl
  · refine Or.inr ⟨fun h => hw h.1, .notImplemented, ?_, by simp⟩
    rw [ladderReads, if_pos (hwhole.mpr hw)]

/-- Numbers of the engine are rounded without a signal. -/
theorem inputs_readsOf {readings : List ClampReading} (h : RungNumbers steps result)
    (hc : ∀ c ∈ readings, EngineNumber c.before) :
    (readsOf steps result readings).inputs = .ok (inputsOf steps result readings) := by
  have hengine := h.engineInputs hc
  have hexact : ∀ r n, (readsOf steps result readings).exact r = some n →
      ∃ q, n = .finite q ∧ EngineNumber q := by
    intro r n hn
    rcases Option.or_eq_some_iff.mp hn with hn | ⟨_, hn⟩
    · obtain ⟨c, hf, rfl⟩ := Option.map_eq_some_iff.mp hn
      exact ⟨_, rfl, hc c (mem_of_bindingFirst (Option.filter_eq_some_iff.mp hf).1).1⟩
    · exact h r n hn
  have hround : ∀ prev r, ∃ s, (readsOf steps result readings).round prev r = .ok s := by
    intro prev r
    unfold LadderReads.round
    split
    · cases prev with
      | none => exact ⟨_, rfl⟩
      | some rounding =>
        split
        · cases ‹some rounding = none›
        · rename_i d hd
          split
          · exact ⟨_, rfl⟩
          · rename_i hp
            obtain ⟨v, hv⟩ := Option.isSome_iff_exists.mp (hengine.placed hp)
            obtain ⟨n, hn, hq⟩ := Option.bind_eq_some_iff.mp hv
            rw [hn]
            cases n with
            | finite q =>
              obtain rfl : q = v := Option.some.inj hq
              exact ⟨_, by
                simp only [roundable_of_engineNumber (hengine.constraintsExact q hv), Except.map]
                rfl⟩
            | infinite _ => cases hq
            | nan _ => cases hq
    · split
      · rename_i n d hn _
        obtain ⟨q, rfl, hq⟩ := hexact r n hn
        exact ⟨_, by simp only [roundable_of_engineNumber hq, Except.map]; rfl⟩
      · exact ⟨_, rfl⟩
  have hfold : ∀ (l : List LadderRungName) prev,
      ∃ s, l.foldlM (readsOf steps result readings).round prev = .ok s := by
    intro l
    induction l with
    | nil => exact fun prev => ⟨prev, rfl⟩
    | cons r l ih =>
      intro prev
      obtain ⟨s, hs⟩ := hround prev r
      obtain ⟨t, ht⟩ := ih s
      exact ⟨t, foldlM_cons_eq_ok.mpr ⟨s, hs, ht⟩⟩
  obtain ⟨s, hs⟩ := hfold rungOrder none
  rw [LadderReads.inputs, hs]
  rfl

theorem output_served {algorithm : RatingAlgorithmDraft} (h : EngineTexts algorithm.steps result)
    (ho : o ∈ algorithm.outputs) :
    (∃ v, ((algorithm.outputs.filterMap fun o =>
        (servedValue algorithm.steps result o).map (o.name, ·)).reverse.lookup o.name) = some v ∧
          v ≠ .null) ↔
      outputValue algorithm.steps result o ≠ .null := by
  have hname : ∀ o' : AlgorithmOutput, o'.name = o.name →
      outputValue algorithm.steps result o' = outputValue algorithm.steps result o := by
    intro o' heq
    simp only [outputValue, outputSource, heq]
  have hmem : ∀ v, (o.name, v) ∈ algorithm.outputs.filterMap (fun o =>
      (servedValue algorithm.steps result o).map (o.name, ·)) ↔
        ∃ o' ∈ algorithm.outputs, o'.name = o.name ∧
          servedValue algorithm.steps result o' = some v := by
    intro v
    simp only [List.mem_filterMap, Option.map_eq_some_iff, Prod.mk.injEq]
    constructor
    · rintro ⟨o', ho', w, hw, hn, rfl⟩; exact ⟨o', ho', hn, hw⟩
    · rintro ⟨o', ho', hn, hv⟩; exact ⟨o', ho', v, hv, hn, rfl⟩
  have hlook : ∀ (l : List (String × Value)) v, l.reverse.lookup o.name = some v →
      (o.name, v) ∈ l := by
    intro l v hv
    obtain ⟨l₁, l₂, hl, _⟩ := List.lookup_eq_some_iff.mp hv
    exact List.mem_reverse.mp (hl ▸ List.mem_append_right l₁ List.mem_cons_self)
  constructor
  · rintro ⟨v, hv, hne⟩
    obtain ⟨o', ho', hn, hs⟩ := (hmem v).mp (hlook _ v hv)
    rw [← hname o' hn]
    exact (servedValue_ne_null h).mp ⟨v, hs, hne⟩
  · intro hne
    obtain ⟨v, hv, _⟩ := (servedValue_ne_null h).mpr hne
    have hin := (hmem v).mpr ⟨o, ho, rfl, hv⟩
    cases hl : (algorithm.outputs.filterMap fun o =>
        (servedValue algorithm.steps result o).map (o.name, ·)).reverse.lookup o.name with
    | none =>
      have hne' := List.lookup_eq_none_iff.mp hl (o.name, v) (List.mem_reverse.mpr hin)
      simp at hne'
    | some w =>
      obtain ⟨o', ho', hn, hs⟩ := (hmem w).mp (hlook _ w hl)
      obtain ⟨w', hw', hne'⟩ := (servedValue_ne_null h).mpr (hname o' hn ▸ hne)
      obtain rfl := Option.some.inj (hs.symm.trans hw')
      exact ⟨w, rfl, hne'⟩

theorem buildScoringResult_of_readable {algorithm : RatingAlgorithmDraft}
    {declines codes : List String} {readings : List ClampReading}
    (h : EngineTexts algorithm.steps result) (hcheck : checkResult algorithm result = .ok ())
    (happly : applyConstraints algorithm result = .ok (declines, codes))
    (hclamps : clampReadings algorithm result codes = .ok readings)
    (hreads : ladderReads algorithm result codes = .ok (readsOf algorithm.steps result readings)) :
    buildScoringResult algorithm result = match buildOutputs algorithm result with
      | .error e => .error e
      | .ok outputs =>
        if !reconcileLadder (buildLadder (inputsOf algorithm.steps result readings) codes)
            (inputsOf algorithm.steps result readings) then
          .error (.coded (.ladderReconciliation (ladderViolations
            (buildLadder (inputsOf algorithm.steps result readings) codes)
            (inputsOf algorithm.steps result readings))))
        else if !outputs.all fun e => e.2.servable then .error .valueError
        else .ok ⟨if declines = [] then .quoted else .declined,
          buildLadder (inputsOf algorithm.steps result readings) codes, outputs, declines⟩ := by
  have hbefore : ∀ c ∈ readings, EngineNumber c.before := by
    intro c hc
    obtain ⟨e, he, n, hn, rfl⟩ := (clampReadings_cases hclamps).1 c hc
    exact h.clamps e he n hn
  simp only [buildScoringResult, hcheck, happly, hreads, inputs_readsOf h.rungNumbers hbefore, bind,
    Except.bind]
  cases buildOutputs algorithm result <;> rfl

theorem reconcileLadder_iff {algorithm : RatingAlgorithmDraft} {declines codes : List String}
    {readings : List ClampReading} (h : EngineTexts algorithm.steps result)
    (happly : applyConstraints algorithm result = .ok (declines, codes))
    (hclamps : clampReadings algorithm result codes = .ok readings)
    (hreads : ladderReads algorithm result codes = .ok (readsOf algorithm.steps result readings)) :
    reconcileLadder (buildLadder (inputsOf algorithm.steps result readings) codes)
      (inputsOf algorithm.steps result readings) = true ↔ LadderTallies algorithm result := by
  have hbefore : ∀ c ∈ readings, EngineNumber c.before := by
    intro c hc
    obtain ⟨e, he, n, hn, rfl⟩ := (clampReadings_cases hclamps).1 c hc
    exact h.clamps e he n hn
  have hnone : ∀ r, (inputsOf algorithm.steps result readings).exact r = none ↔
      rungValue algorithm.steps result r = none := fun r => by
    rw [← Option.not_isSome_iff_eq_none, ← Option.not_isSome_iff_eq_none,
      h.rungNumbers.isSome_exact r]
  rw [reconcileLadder, List.isEmpty_iff, ladderViolations_buildLadder
    (h.rungNumbers.engineInputs hbefore) ((hnone constraints).mpr rfl), LadderTallies]
  simp only [hnone]
  refine or_congr_right ⟨fun hr => ⟨declines, codes, _, happly, hreads, hr⟩, ?_⟩
  rintro ⟨declines', codes', reads, happly', hreads', hr⟩
  obtain ⟨rfl, rfl⟩ := Prod.mk.inj (Except.ok.inj (happly.symm.trans happly'))
  obtain rfl := Except.ok.inj (hreads.symm.trans hreads')
  exact hr

theorem rung_served {algorithm : RatingAlgorithmDraft} {codes : List String}
    {readings : List ClampReading} {r : LadderRungName} (h : EngineTexts algorithm.steps result)
    (hclamps : clampReadings algorithm result codes = .ok readings) (hr : r ≠ constraints) :
    (∃ x ∈ buildLadder (inputsOf algorithm.steps result readings) codes, x.rung = r ∧ ∃ v d,
        engineValue algorithm.steps result r = some v ∧ rungRounding algorithm.steps r = some d ∧
          x.unrounded = some v ∧ x.valueMinor = roundOnce v d) ↔
      (rungValue algorithm.steps result r).isSome := by
  rw [← h.rungNumbers.isSome_exact r]
  constructor
  · rintro ⟨x, hx, rfl, _⟩
    exact (rung_of_mem_buildFrom rungOrder hx).resolve_left hr
  · intro hs
    have hbefore : ∀ c ∈ readings, EngineNumber c.before := by
      intro c hc
      obtain ⟨e, he, n, hn, rfl⟩ := (clampReadings_cases hclamps).1 c hc
      exact h.clamps e he n hn
    obtain ⟨v, hv⟩ := Option.isSome_iff_exists.mp hs
    obtain ⟨d, hd⟩ := Option.isSome_iff_exists.mp
      ((h.rungNumbers.engineInputs hbefore).rounding r v hv)
    obtain ⟨x, hx, hxr, hxv, hxm⟩ := @exists_rung _ codes r hr v d hv hd rungOrder
      (mem_rungOrder r) none
    refine ⟨x, hx, hxr, v, d, (exact_eq_engineValue hclamps r).symm.trans hv, ?_, hxv, hxm⟩
    simp only [LadderReads.finite, readsOf] at hd
    split at hd
    · exact hd
    · cases hd

/-- Where nothing fails before the outputs, the property is the condition on what follows. -/
theorem nullSafe_of_readable {algorithm : RatingAlgorithmDraft} {declines codes : List String}
    {readings : List ClampReading} (h : EngineTexts algorithm.steps result)
    (hcheck : checkResult algorithm result = .ok ())
    (happly : applyConstraints algorithm result = .ok (declines, codes))
    (hdecl : declines ≠ [] ↔ Declines algorithm result)
    (hclamps : clampReadings algorithm result codes = .ok readings)
    (hreads : ladderReads algorithm result codes = .ok (readsOf algorithm.steps result readings))
    (hn : ∀ o ∈ algorithm.outputs, NotWhole algorithm.steps result o = false)
    (hu : ∀ o ∈ algorithm.outputs, Unwritable algorithm.steps result o = false) :
    NullSafe algorithm result ↔ ¬ LadderTallies algorithm result ∨
      ((∀ o ∈ algorithm.outputs, outputExact algorithm.steps result o = none →
          (outputValue algorithm.steps result o).servable = true) ∧
        (Declines algorithm result ∨ Complete algorithm result)) := by
  have hbuild := buildScoringResult_of_readable h hcheck happly hclamps hreads
  rw [buildOutputs_written h hn hu] at hbuild
  have htally := reconcileLadder_iff h happly hclamps hreads
  unfold NullSafe
  rw [hbuild]
  by_cases ht : LadderTallies algorithm result
  swap
  · have hf := htally.not.mpr ht
    simp [hf, ht]
  have hservable : ((algorithm.outputs.filterMap fun o =>
      (servedValue algorithm.steps result o).map (o.name, ·)).all fun e => e.2.servable) = true ↔
        ∀ o ∈ algorithm.outputs, outputExact algorithm.steps result o = none →
          (outputValue algorithm.steps result o).servable = true := by
    simp only [List.all_eq_true, List.mem_filterMap, Option.map_eq_some_iff]
    rw [← forall₂_congr fun o _ => @servedValue_servable algorithm.steps result o]
    constructor
    · intro hall o ho v hv; exact hall (o.name, v) ⟨o, ho, v, hv, rfl⟩
    · rintro hall _ ⟨o, ho, v, hv, rfl⟩; exact hall o ho v hv
  simp only [htally.mpr ht, Bool.not_true, Bool.false_eq_true, if_false, ht, not_true, false_or]
  by_cases hs : ((algorithm.outputs.filterMap fun o =>
      (servedValue algorithm.steps result o).map (o.name, ·)).all fun e => e.2.servable) = true
  swap
  · simp [hs, hservable.not.mp hs]
  simp only [hs, Bool.not_true, Bool.false_eq_true, if_false]
  rw [and_iff_right (hservable.mp hs), ← hdecl]
  by_cases hd : declines = []
  swap
  · simp [hd]
  simp only [hd, if_true, true_imp_iff, ne_eq, not_true, false_or]
  constructor
  · rintro ⟨hout, hrungs⟩
    exact ⟨fun o ho hreq => (output_served h ho).mp (hout o ho hreq),
      fun r hr hstep => (rung_served h hclamps hr).mp (hrungs r hr hstep)⟩
  · rintro ⟨hout, hrungs⟩
    exact ⟨fun o ho hreq => (output_served h ho).mpr (hout o ho hreq),
      fun r hr hstep => (rung_served h hclamps hr).mpr (hrungs r hr hstep)⟩

/-- A quote is safe from nulls exactly when the engine's result is guarded. -/
theorem nullSafe_iff_guarded {algorithm : RatingAlgorithmDraft}
    (h : EngineTexts algorithm.steps result) :
    NullSafe algorithm result ↔ Guarded algorithm result := by
  cases hcheck : checkResult algorithm result with
  | error e =>
    have hsafe : NullSafe algorithm result := by
      unfold NullSafe
      simp only [buildScoringResult, hcheck, bind, Except.bind]
      exact checkResult_coded hcheck
    exact iff_of_true hsafe (Or.inl ⟨e, hcheck⟩)
  | ok _ =>
    have hguard : Guarded algorithm result ↔ _ := or_iff_right (by simp [hcheck])
    rw [hguard]
    rcases applyConstraints_cases algorithm result with
      ⟨happly, s, hs, hf, code, hv⟩ | ⟨declines, codes, happly, hdesigned, hdecl⟩
    · refine iff_of_false ?_ fun hg => hg.1.designed s hs hf code hv
      unfold NullSafe
      simp [buildScoringResult, hcheck, happly, bind, Except.bind]
    rcases ladderReads_cases algorithm result codes with
      ⟨hwhole, hclamped, readings, hclamps, hreads⟩ | ⟨hunread, e, hreads, he⟩
    swap
    · refine iff_of_false ?_ fun hg => hunread ⟨hg.1.whole, hg.1.clamps⟩
      unfold NullSafe
      simp only [buildScoringResult, hcheck, happly, hreads, bind, Except.bind]
      exact fun ⟨refusal, hr⟩ => he refusal hr
    rw [and_iff_right (⟨hdesigned, hwhole, hclamped⟩ : Readable algorithm result)]
    have hbuild := buildScoringResult_of_readable h hcheck happly hclamps hreads
    -- the first output that fails decides
    cases hfind : algorithm.outputs.find? fun o =>
        NotWhole algorithm.steps result o || Unwritable algorithm.steps result o with
    | none =>
      have hall := List.find?_eq_none.mp hfind
      simp only [Bool.or_eq_true, not_or, Bool.not_eq_true] at hall
      rw [nullSafe_of_readable h hcheck happly hdecl hclamps hreads (fun o ho => (hall o ho).1)
        fun o ho => (hall o ho).2]
      have hnone : ¬ ∃ o ∈ algorithm.outputs, NotWhole algorithm.steps result o = true := by
        rintro ⟨o, ho, hn⟩
        rw [(hall o ho).1] at hn
        cases hn
      simp only [hnone, false_or]
      exact (and_iff_right fun o ho => (hall o (List.takeWhile_subset _ ho)).2).symm
    | some o =>
      obtain ⟨ho, pre, post, hl, hpre⟩ := List.find?_eq_some_iff_append.mp hfind
      simp only [Bool.not_eq_true', Bool.or_eq_false_iff] at hpre
      have htake : algorithm.outputs.takeWhile (fun o => !NotWhole algorithm.steps result o) =
          pre ++ (o :: post).takeWhile fun o => !NotWhole algorithm.steps result o := by
        rw [hl, List.takeWhile_append_of_pos]
        intro x hx
        rw [(hpre x hx).1]; rfl
      by_cases hn : NotWhole algorithm.steps result o = true
      · obtain ⟨refusal, hout⟩ := buildOutput_notWhole h hn
        refine iff_of_true ?_ ⟨fun x hx => ?_, Or.inl ⟨o, hl ▸ by simp, hn⟩⟩
        · unfold NullSafe
          rw [hbuild, buildOutputs_failed h hl hpre hout]
          exact ⟨refusal, rfl⟩
        · rw [htake, List.takeWhile_cons_of_neg (by simp [hn]), List.append_nil] at hx
          exact (hpre x hx).2
      · have hun : Unwritable algorithm.steps result o = true := by simpa [hn] using ho
        obtain ⟨e, hout, he⟩ := buildOutput_unwritable h hun
        refine iff_of_false ?_ fun hg => ?_
        · unfold NullSafe
          rw [hbuild, buildOutputs_failed h hl hpre hout]
          exact fun ⟨refusal, hr⟩ => he refusal hr
        · have hfalse := hg.1 o (by rw [htake, List.takeWhile_cons_of_pos (by simp [hn])]; simp)
          rw [hun] at hfalse
          cases hfalse

section Example

/-- The payable is a table's value, and the table answers a miss with a default. -/
def tablePayable : RatingAlgorithm where
  slug := "motor"
  version := 1
  inputContract := [{ name := "area", type := .string }]
  outputs := [{ name := "payable_premium_minor", type := "money_minor" }]
  steps := [
    { stepId := "in", consumes := [], produces := ["area"], kind := .input "area" .error },
    { stepId := "area_table", consumes := ["area"], produces := ["price"],
      kind := .table ⟨"rate_table", "area", 1⟩ ["area"] .default .none },
    { stepId := "payable_out", consumes := ["price"], produces := [],
      kind := .output "payable_premium_minor" ⟨.halfEven, 0⟩ }]
  subGraphs := []
  graph_ok := by decide

/-- The result for an area without a row: the price is absent and its exact text is `null`. -/
def missedPrice : Context := fun key =>
  [("area", .text "Z"), ("__exact__price", .text "null")].lookup key

theorem missedPrice_texts : EngineTexts tablePayable.steps missedPrice where
  exact name step rounding hstep source hsource n hn := by
    obtain ⟨hs, hk⟩ := mem_of_outputStep hstep
    have hall : ∀ s ∈ tablePayable.steps, s.isOutput = true → s.consumes.head? = some "price" := by
      decide
    have hprice := hall step hs (by simp [RatingStep.isOutput, hk])
    obtain rfl := Option.some.inj (hsource.symm.trans hprice)
    have hnone : exactRead missedPrice "price" = none := by decide
    rw [hnone] at hn
    cases hn
  clamps e he := by
    rw [(by decide : clampSteps tablePayable.steps = [])] at he
    cases he

theorem missedPrice_safe_iff :
    NullSafe tablePayable.toRatingAlgorithmDraft missedPrice ↔
      Guarded tablePayable.toRatingAlgorithmDraft missedPrice :=
  nullSafe_iff_guarded missedPrice_texts

/-- The quote of a missed payable is served, with no payable and no ladder. -/
theorem missedPrice_not_safe :
    EngineTexts tablePayable.steps missedPrice ∧
      buildScoringResult tablePayable.toRatingAlgorithmDraft missedPrice =
        .ok ⟨.quoted, [], [], []⟩ ∧
      ¬ NullSafe tablePayable.toRatingAlgorithmDraft missedPrice := by
  have hbuild : buildScoringResult tablePayable.toRatingAlgorithmDraft missedPrice =
      .ok ⟨.quoted, [], [], []⟩ := by decide
  refine ⟨missedPrice_texts, hbuild, fun h => ?_⟩
  unfold NullSafe at h
  rw [hbuild] at h
  obtain ⟨v, hv, _⟩ := (h rfl).1 { name := "payable_premium_minor", type := "money_minor" }
    (by decide) rfl
  cases hv

end Example

end GiPricing
