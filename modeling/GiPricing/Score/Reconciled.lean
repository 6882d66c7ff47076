import GiPricing.Rating.Accepted
import GiPricing.Score.Reads

/-! # When a priced quote reconciles

The ladder of an engine result passes the check exactly when the clamps that moved a value
moved a rung, no clamp has crossed limits or an ambiguous reason code, and the payable is the
rung before it, carried there on one minor unit.
-/

namespace GiPricing

open Decimal Failure LadderRungName

def clampValue (before : ℚ) (minimum maximum : Option ℚ) : ℚ :=
  let low := (minimum.filter (before < ·)).getD before
  (maximum.filter (· < low)).getD low

/-- A result as the engine writes it: numbers of the engine at every rung, and for each clamp
the flag, the readings and, where it clamps a rung in place, the value its node writes. -/
structure EngineResult (steps : List RatingStep) (result : Context) : Prop where
  exact : RungNumbers steps result
  named : ∀ e ∈ clampSteps steps, e.2.1 ≠ "" ∧ e.1.consumes.head? ≠ some ""
  reads : ∀ e ∈ clampSteps steps, ∃ before minimum maximum,
    clampNumbers result e.1 = .ok (before, minimum, maximum) ∧ EngineNumber before ∧
      (fired result e.1 = true ↔ clampValue before minimum maximum ≠ before) ∧
      ∀ r, rungSource steps r = some e.2.1 → e.1.consumes.head? = some e.2.1 →
        exactRead result e.2.1 = some (.finite (clampValue before minimum maximum))

/-- The rungs a replay passes through: the clamped rung alone stands for those before it. -/
def replayedRungs (steps : List RatingStep) (result : Context) : List (LadderRungName × ℚ) :=
  let before := presentOf (rungValue steps result) rungsBefore
  (if (clampSteps steps).any fun e => fired result e.1 then before.getLast?.toList else before) ++
    presentOf (rungValue steps result) rungsAfter

def rungsBetween : List LadderRungName := [instalmentLoading, iptAndFees]

/-- What a result has to satisfy for its ladder to reconcile. -/
structure Tallies (steps : List RatingStep) (result : Context) : Prop where
  onRung : ∀ e ∈ clampSteps steps, fired result e.1 = true →
    ∃ r, (rungValue steps result r).isSome ∧ rungSource steps r = some e.2.1
  uncrossed : ∀ e ∈ clampSteps steps, ∀ before minimum maximum,
    clampNumbers result e.1 = .ok (before, some minimum, some maximum) →
      before ≤ maximum → minimum ≤ maximum
  codes : ∀ e ∈ clampSteps steps, fired result e.1 = false →
    ∀ s ∈ steps, fired result s = true → s.violation? ≠ some (.clamp, e.2.2)
  payable : ∃ v, rungValue steps result payablePremium = some v ∧
    ∀ p ∈ lastValue none (presentOf (rungValue steps result) (rungsBefore ++ rungsBetween)), v = p
  carried : ∀ v d, rungValue steps result payablePremium = some v →
    rungRounding steps payablePremium = some d →
      (carryAlong none (replayedRungs steps result)).map (fun e => roundOnce e.2 d) =
        some (roundOnce v d)

/-! ## Comparisons -/

section Comparison

variable {c : ClampReading} {side : BoundSide} {bound : ℚ}

theorem bindingSide_eq_none (h : bindingSide c = none) :
    clampValue c.before c.minimum c.maximum = c.before := by
  simp only [bindingSide, Option.or_eq_none_iff, Option.map_eq_none_iff] at h
  rw [clampValue, h.1, h.2, Option.getD_none, Option.getD_none]

theorem clampValue_eq_bound (h : bindingSide c = some (side, bound)) :
    clampValue c.before c.minimum c.maximum = bound := by
  simp only [bindingSide] at h
  simp only [clampValue]
  cases hm : c.maximum.filter (· < (c.minimum.filter (c.before < ·)).getD c.before) with
  | some m =>
    simp only [hm, Option.map_some, Option.some_or, Option.some.injEq, Prod.mk.injEq] at h
    exact h.2
  | none =>
    simp only [hm, Option.map_none, Option.none_or, Option.map_eq_some_iff] at h
    obtain ⟨l, hl, he⟩ := h
    rw [hl]
    exact (Prod.mk.inj he).2

theorem farSide_of_uncrossed (h : bindingSide c = some (side, bound))
    (hu : ∀ l m, c.minimum = some l → c.maximum = some m → c.before ≤ m → l ≤ m) :
    side.farSide c.before bound = true := by
  simp only [bindingSide] at h
  cases hm : c.maximum.filter (· < (c.minimum.filter (c.before < ·)).getD c.before) with
  | some m =>
    simp only [hm, Option.map_some, Option.some_or, Option.some.injEq, Prod.mk.injEq] at h
    obtain ⟨rfl, rfl⟩ := h
    obtain ⟨hmax, hlt⟩ := Option.filter_eq_some_iff.mp hm
    simp only [decide_eq_true_eq] at hlt
    simp only [BoundSide.farSide, decide_eq_true_eq]
    by_contra hn
    cases hl : c.minimum.filter (c.before < ·) with
    | none => simp only [hl, Option.getD_none] at hlt; exact hn hlt
    | some l =>
      simp only [hl, Option.getD_some] at hlt
      exact absurd (hu l m (Option.filter_eq_some_iff.mp hl).1 hmax (not_lt.mp hn)) (not_le.mpr hlt)
  | none =>
    simp only [hm, Option.map_none, Option.none_or, Option.map_eq_some_iff] at h
    obtain ⟨l, hl, he⟩ := h
    obtain ⟨rfl, rfl⟩ := Prod.mk.inj he
    simpa [BoundSide.farSide] using (Option.filter_eq_some_iff.mp hl).2

theorem bindingSide_of_crossed {l m : ℚ} (hl : c.minimum = some l) (hm : c.maximum = some m)
    (hb : c.before ≤ m) (hx : m < l) : bindingSide c = some (.max, m) := by
  have hlow : c.minimum.filter (c.before < ·) = some l := by
    simp [hl, Option.filter, hb.trans_lt hx]
  have hhigh : c.maximum.filter (· < l) = some m := by simp [hm, Option.filter, hx]
  simp only [bindingSide, hlow, Option.getD_some, hhigh, Option.map_some, Option.some_or]

theorem crossed_of_unmoved (h : bindingSide c = some (side, bound))
    (hv : clampValue c.before c.minimum c.maximum = c.before) :
    ∃ l m, c.minimum = some l ∧ c.maximum = some m ∧ c.before ≤ m ∧ m < l := by
  by_contra hn
  have hfar := farSide_of_uncrossed h fun l m hl hm hb => by
    by_contra hx
    exact hn ⟨l, m, hl, hm, hb, not_le.mp hx⟩
  rw [clampValue_eq_bound h] at hv
  cases side <;> simp [BoundSide.farSide, hv] at hfar

end Comparison

/-! ## The readings -/

variable {steps : List RatingStep} {result : Context} {codes : List String}

theorem clampReadings_eq_ok {algorithm : RatingAlgorithmDraft} {readings : List ClampReading}
    (hn : ∀ e ∈ clampSteps algorithm.steps, ∃ n, clampNumbers result e.1 = .ok n)
    (h : clampReadings algorithm result codes = .ok readings) :
    List.Forall₂ (Reads result codes) (clampSteps algorithm.steps) readings := by
  obtain ⟨os, hos, rfl⟩ := map_eq_ok.mp h
  replace hos := mapM_eq_ok.mp hos
  clear h
  generalize clampSteps algorithm.steps = l at hn hos
  induction hos with
  | nil => exact .nil
  | @cons e o l os he _ ih =>
    obtain ⟨n, hn'⟩ := hn e List.mem_cons_self
    rw [clampReading_eq_ok hn'] at he
    obtain rfl := Except.ok.inj he
    exact .cons ⟨n, hn', rfl⟩ (ih fun x hx => hn x (List.mem_cons_of_mem _ hx))

theorem exists_reading {l : List (RatingStep × String × String)} {readings : List ClampReading}
    (h : List.Forall₂ (Reads result codes) l readings) {e : RatingStep × String × String}
    (he : e ∈ l) : ∃ c ∈ readings, Reads result codes e c := by
  induction h with
  | nil => cases he
  | cons hr _ ih =>
    rcases List.mem_cons.mp he with rfl | he
    · exact ⟨_, List.mem_cons_self, hr⟩
    · obtain ⟨c, hc, hr⟩ := ih he
      exact ⟨c, List.mem_cons_of_mem _ hc, hr⟩

theorem exists_clampStep {l : List (RatingStep × String × String)} {readings : List ClampReading}
    (h : List.Forall₂ (Reads result codes) l readings) {c : ClampReading} (hc : c ∈ readings) :
    ∃ e ∈ l, Reads result codes e c := by
  induction h with
  | nil => cases hc
  | cons hr _ ih =>
    rcases List.mem_cons.mp hc with rfl | hc
    · exact ⟨_, List.mem_cons_self, hr⟩
    · obtain ⟨e, he, hr⟩ := ih hc
      exact ⟨e, List.mem_cons_of_mem _ he, hr⟩

theorem mem_clampCodes {algorithm : RatingAlgorithmDraft} {declines : List String}
    (h : applyConstraints algorithm result = .ok (declines, codes)) {code : String} :
    code ∈ codes ↔ ∃ s ∈ algorithm.steps, fired result s = true ∧
      s.violation? = some (.clamp, code) := by
  simp only [applyConstraints] at h
  split_ifs at h
  obtain ⟨-, rfl⟩ := Prod.mk.inj (Except.ok.inj h)
  simp only [List.mem_map, List.mem_filter, List.mem_filterMap, decide_eq_true_eq]
  constructor
  · rintro ⟨⟨v, _⟩, ⟨⟨s, ⟨hs, hf⟩, hv⟩, rfl⟩, rfl⟩; exact ⟨s, hs, hf, hv⟩
  · rintro ⟨s, hs, hf, hv⟩; exact ⟨_, ⟨⟨s, ⟨hs, hf⟩, hv⟩, rfl⟩, rfl⟩

/-! ## Placed clamps -/

theorem inPlace_of_placed {algorithm : RatingAlgorithmDraft}
    (hplace : checkClampPlacement algorithm = []) {e : RatingStep × String × String}
    (he : e ∈ clampSteps algorithm.steps) (hn : e.2.1 ≠ "" ∧ e.1.consumes.head? ≠ some "")
    {r : LadderRungName} (hr : rungSource algorithm.steps r = some e.2.1) :
    some r = placeable algorithm.steps ∧ e.1.consumes.head? = some e.2.1 := by
  obtain ⟨hs, hv, hp⟩ := mem_clampSteps.mp he
  have hclamp : e.1.isClamp = true := by
    cases hk : e.1.kind <;> simp [RatingStep.violation?, hk] at hv
    simp [RatingStep.isClamp, hk, hv.1]
  obtain ⟨rest, hrest⟩ : ∃ rest, e.1.produces.filter (· ≠ "") = e.2.1 :: rest := by
    cases hl : e.1.produces with
    | nil => simp [hl] at hp
    | cons a t =>
      rw [hl] at hp
      obtain rfl := Option.some.inj hp
      exact ⟨t.filter (· ≠ ""), by simp [hn.1]⟩
  have hun := List.flatMap_eq_nil_iff.mp hplace e.1 hs
  simp only [RatingStep.unplaceable, hclamp, hrest, List.filterMap_eq_nil_iff, List.mem_filter,
    decide_eq_true_eq, and_imp] at hun
  have hmem : r ∈ rungOrder := by cases r <;> simp [rungOrder, rungsBefore, rungsAfter]
  have h := hun r hmem hr
  split_ifs at h with h₁ h₂
  refine ⟨not_not.mp h₁, ?_⟩
  have hc := not_not.mp h₂
  cases hl : e.1.consumes with
  | nil => simp [hl] at hc
  | cons a t =>
    have ha : a ≠ "" := fun ha => hn.2 (by rw [hl, ha]; rfl)
    simpa [hl, ha] using hc

/-- Two clamps of an accepted graph on the source of a rung are one step. -/
theorem clampStep_unique {algorithm : RatingAlgorithmDraft}
    (hgraph : algorithm.graphInvariantIssues = []) (hplace : checkClampPlacement algorithm = [])
    {e e' : RatingStep × String × String}
    (he : e ∈ clampSteps algorithm.steps) (he' : e' ∈ clampSteps algorithm.steps)
    (hn : e.2.1 ≠ "" ∧ e.1.consumes.head? ≠ some "")
    (hn' : e'.2.1 ≠ "" ∧ e'.1.consumes.head? ≠ some "") {r : LadderRungName}
    (hr : rungSource algorithm.steps r = some e.2.1) (heq : e'.2.1 = e.2.1) : e = e' := by
  obtain ⟨hs, hv, hp⟩ := mem_clampSteps.mp he
  obtain ⟨hs', hv', hp'⟩ := mem_clampSteps.mp he'
  have hc := (inPlace_of_placed hplace he hn hr).2
  have hc' := (inPlace_of_placed hplace he' hn' (heq ▸ hr)).2
  obtain ⟨rank, hrank⟩ := ((graphInvariantIssues_eq_nil.mp hgraph).pass none).sound.acyclic
  have hu := ((graphInvariantIssues_eq_nil.mp hgraph).pass none).sound.ids_nodup
  have hm : ∀ s ∈ algorithm.steps, s.node ∈ algorithm.nodesWith (algorithm.mountsFor none) :=
    fun s hs => List.mem_append_left _ (List.mem_map.mpr ⟨s, hs, rfl⟩)
  have hlt : ∀ s ∈ algorithm.steps, ∀ s' ∈ algorithm.steps, s.stepId ≠ s'.stepId →
      s.consumes.head? = some e.2.1 → s'.produces.head? = some e.2.1 →
      rank s'.stepId < rank s.stepId := by
    intro s hs s' hs' hne hx hy
    refine hrank s.node.stepId (List.mem_map.mpr ⟨_, hm s hs, rfl⟩) s'.node.stepId ?_
    exact (Graph.mem_dependencies hu (hm s hs) (hm s' hs')).mpr
      ⟨hne.symm, e.2.1, List.mem_of_mem_head? hx, List.mem_of_mem_head? hy⟩
  have hid : e.1.stepId = e'.1.stepId := by
    by_contra hne
    exact lt_asymm (hlt e.1 hs e'.1 hs' hne hc (heq ▸ hp'))
      (hlt e'.1 hs' e.1 hs (Ne.symm hne) (heq ▸ hc') hp)
  have hstep : e.1 = e'.1 := by
    have hnodup : (algorithm.steps.map RatingStep.stepId).Nodup :=
      (List.nodup_append.mp (graphInvariantIssues_eq_nil.mp hgraph).ids_nodup).1
    exact List.inj_on_of_nodup_map hnodup hs hs' hid
  rw [hstep, hv'] at hv
  exact Prod.ext hstep (Prod.ext heq.symm (Prod.mk.inj (Option.some.inj hv)).2.symm)

/-! ## The inputs of the check -/

theorem scoredLadder_eq_ok {algorithm : RatingAlgorithmDraft} {inputs : LadderInputs}
    {ladder : List LadderRung} (h : scoredLadder algorithm result = .ok (inputs, ladder)) :
    ∃ declines codes readings, applyConstraints algorithm result = .ok (declines, codes) ∧
      clampReadings algorithm result codes = .ok readings ∧
      inputs = (readsOf algorithm.steps result readings).finite ∧
      ladder = buildLadder inputs codes := by
  obtain ⟨⟨declines, codes⟩, hd, h⟩ := bind_eq_ok.mp h
  obtain ⟨reads, hr, h⟩ := bind_eq_ok.mp h
  obtain ⟨inputs', hi, h⟩ := bind_eq_ok.mp h
  obtain ⟨rfl, rfl⟩ := Prod.mk.inj (pure_eq_ok.mp h)
  simp only [ladderReads] at hr
  split_ifs at hr
  obtain ⟨readings, hreadings, rfl⟩ := map_eq_ok.mp hr
  obtain ⟨_, _, rfl⟩ := map_eq_ok.mp hi
  exact ⟨declines, codes, readings, hd, hreadings, rfl, rfl⟩

/-- An engine result of an accepted algorithm, its disposition and what its clamps read. -/
structure Scored (algorithm : RatingAlgorithmDraft) (result : Context) (codes : List String)
    (readings : List ClampReading) : Prop where
  graph : algorithm.graphInvariantIssues = []
  placement : checkClampPlacement algorithm = []
  engine : EngineResult algorithm.steps result
  disposition : ∃ declines, applyConstraints algorithm result = .ok (declines, codes)
  readings : List.Forall₂ (Reads result codes) (clampSteps algorithm.steps) readings

theorem lastBefore_of_placeable {r : LadderRungName} (h : placeable steps = some r)
    (hr : (rungExact steps result r).isSome) : lastBefore steps result = some r := by
  obtain ⟨init, hinit⟩ := List.getLast?_eq_some_iff.mp h
  have hsub : rungsBefore.filter (fun r => (rungExact steps result r).isSome) =
      (rungsBefore.filter fun r => (rungSource steps r).isSome).filter
        fun r => (rungExact steps result r).isSome := by
    rw [List.filter_filter]
    refine List.filter_congr fun x _ => ?_
    cases hx : rungSource steps x <;> simp [rungExact, hx]
  rw [lastBefore, hsub, hinit, List.filter_append, List.filter_singleton, hr, cond_true,
    List.getLast?_concat]

namespace Scored

variable {algorithm : RatingAlgorithmDraft} {readings : List ClampReading} {c c' : ClampReading}

theorem engine_of_reads (h : Scored algorithm result codes readings)
    {e : RatingStep × String × String} (he : e ∈ clampSteps algorithm.steps)
    (hr : Reads result codes e c) :
    EngineNumber c.before ∧
      (fired result e.1 = true ↔ clampValue c.before c.minimum c.maximum ≠ c.before) ∧
      ∀ r, rungSource algorithm.steps r = some e.2.1 → e.1.consumes.head? = some e.2.1 →
        exactRead result e.2.1 = some (.finite (clampValue c.before c.minimum c.maximum)) := by
  obtain ⟨before, minimum, maximum, hn, hrest⟩ := h.engine.reads e he
  obtain ⟨n, hn', rfl⟩ := hr
  rw [hn] at hn'
  obtain rfl := Except.ok.inj hn'
  exact hrest

theorem reading_unique (h : Scored algorithm result codes readings) {r : LadderRungName}
    (hc : c ∈ readings) (hc' : c' ∈ readings)
    (hr : rungSource algorithm.steps r = some c.source) (heq : c'.source = c.source) : c = c' := by
  obtain ⟨e, he, hr₁⟩ := exists_clampStep h.readings hc
  obtain ⟨e', he', hr₂⟩ := exists_clampStep h.readings hc'
  have hs : c.source = e.2.1 := by obtain ⟨n, _, rfl⟩ := hr₁; rfl
  have hs' : c'.source = e'.2.1 := by obtain ⟨n, _, rfl⟩ := hr₂; rfl
  rw [hs] at hr heq
  rw [hs'] at heq
  obtain rfl := clampStep_unique h.graph h.placement he he' (h.engine.named e he)
    (h.engine.named e' he') hr heq
  exact hr₁.unique hr₂

/-- Where a clamp is placed, it is the only one on the clamped rung, which carries the value
before it. -/
theorem exists_placed (h : Scored algorithm result codes readings)
    (hp : (inputsOf algorithm.steps result readings).placedBinding ≠ []) :
    ∃ c ∈ readings, ∃ side bound r, bindingSide c = some (side, bound) ∧
      (inputsOf algorithm.steps result readings).placedBinding.getLast? = some (side, bound) ∧
      lastBefore algorithm.steps result = some r ∧
      rungSource algorithm.steps r = some c.source ∧
      ∀ r', (inputsOf algorithm.steps result readings).exact r' =
        if r' = r then some c.before else rungValue algorithm.steps result r' := by
  obtain ⟨x, hx⟩ := List.exists_mem_of_ne_nil _ hp
  obtain ⟨c, hc, hs, hb⟩ := mem_placedBinding.mp hx
  obtain ⟨r, hlast, hr⟩ := Option.bind_eq_some_iff.mp hs.symm
  have honly : ∀ c' ∈ readings, some c'.source =
      (lastBefore algorithm.steps result).bind (rungSource algorithm.steps) → c = c' := by
    intro c' hc' hs'
    exact h.reading_unique hc hc' hr (Option.some.inj (hs'.trans hs.symm))
  have hlastBound : (inputsOf algorithm.steps result readings).placedBinding.getLast? = some x := by
    rw [List.getLast?_eq_some_getLast hp]
    obtain ⟨c', hc', hs', hb'⟩ := mem_placedBinding.mp (List.getLast_mem hp)
    obtain rfl := honly c' hc' hs'
    exact hb' ▸ hb
  refine ⟨c, hc, x.1, x.2, r, hb, hlastBound, hlast, hr, fun r' => ?_⟩
  obtain ⟨c', hfind⟩ : ∃ c', bindingFirst readings
      ((lastBefore algorithm.steps result).bind (rungSource algorithm.steps)) = some c' := by
    rw [← Option.isSome_iff_exists, bindingFirst, List.find?_isSome]
    exact ⟨c, hc, by simp [hb, hs]⟩
  obtain ⟨hc', _, hs'⟩ := mem_of_bindingFirst hfind
  obtain rfl := honly c' hc' hs'
  rw [exact_inputsOf, hfind, hlast]
  by_cases hr' : r' = r <;> simp [hr', Option.filter]

theorem engineInputs (h : Scored algorithm result codes readings) :
    EngineInputs (inputsOf algorithm.steps result readings) :=
  h.engine.exact.engineInputs fun _ hc => by
    obtain ⟨e, he, hread⟩ := exists_clampStep h.readings hc
    exact (h.engine_of_reads he hread).1

theorem lastValue_before (h : Scored algorithm result codes readings)
    {exact : LadderRungName → Option ℚ}
    (he : ∀ r, (exact r).isSome = (rungValue algorithm.steps result r).isSome) :
    lastValue none (presentOf exact rungsBefore) =
      (lastBefore algorithm.steps result).bind exact := by
  have hlast : lastBefore algorithm.steps result =
      (rungsBefore.filter fun r => (exact r).isSome).getLast? := by
    refine congrArg List.getLast? (List.filter_congr fun r _ => ?_)
    rw [h.engine.exact.rungExact_eq, he, Option.isSome_map]
  rw [hlast]
  generalize rungsBefore = l
  induction l using List.reverseRecOn with
  | nil => rfl
  | append_singleton l r ih =>
    rw [presentOf, List.filterMap_append, List.filter_append]
    cases hr : exact r with
    | none => simpa [hr, presentOf] using ih
    | some v => simp [hr, lastValue]

theorem presentOf_after (h : Scored algorithm result codes readings) {l : List LadderRungName}
    (hl : ∀ r ∈ l, r ∉ rungsBefore) :
    presentOf (inputsOf algorithm.steps result readings).exact l =
      presentOf (rungValue algorithm.steps result) l := by
  by_cases hp : (inputsOf algorithm.steps result readings).placedBinding = []
  · rw [exact_of_unplaced hp]
  · obtain ⟨_, _, _, _, r, _, _, hlast, _, hexact⟩ := h.exists_placed hp
    refine List.filterMap_congr fun x hx => ?_
    rw [hexact, if_neg]
    rintro rfl
    exact hl x hx (lastBefore_eq_some hlast).1

/-- Every clamp that binds fired, on the clamped rung, with uncrossed limits. -/
structure Placed (algorithm : RatingAlgorithmDraft) (result : Context) (codes : List String)
    (readings : List ClampReading) : Prop where
  fired_iff : ∀ e ∈ clampSteps algorithm.steps, ∀ c ∈ readings, Reads result codes e c →
    (fired result e.1 = true ↔ (bindingSide c).isSome)
  source : ∀ c ∈ readings, (bindingSide c).isSome →
    some c.source = (inputsOf algorithm.steps result readings).clampSource
  uncrossed : ∀ c ∈ readings, ∀ l m, c.minimum = some l → c.maximum = some m →
    c.before ≤ m → l ≤ m

theorem any_fired (h : Scored algorithm result codes readings)
    (ha : Placed algorithm result codes readings) :
    ((clampSteps algorithm.steps).any fun e => fired result e.1) = true ↔
      (inputsOf algorithm.steps result readings).placedBinding ≠ [] := by
  rw [List.any_eq_true]
  constructor
  · rintro ⟨e, he, hf⟩ hp
    obtain ⟨c, hc, hr⟩ := exists_reading h.readings he
    have hb := (ha.fired_iff e he c hc hr).mp hf
    obtain ⟨x, hx⟩ := Option.isSome_iff_exists.mp hb
    have hm := mem_placedBinding.mpr ⟨c, hc, ha.source c hc hb, hx⟩
    rw [hp] at hm
    cases hm
  · intro hp
    obtain ⟨c, hc, _, _, _, hb, _⟩ := h.exists_placed hp
    obtain ⟨e, he, hr⟩ := exists_clampStep h.readings hc
    exact ⟨e, he, (ha.fired_iff e he c hc hr).mpr (by simp [hb])⟩

theorem exists_clamped (h : Scored algorithm result codes readings)
    (ha : Placed algorithm result codes readings)
    (hp : (inputsOf algorithm.steps result readings).placedBinding ≠ []) :
    ∃ (c : ClampReading) (side : BoundSide) (bound : ℚ),
      (inputsOf algorithm.steps result readings).placedBinding.getLast? = some (side, bound) ∧
      lastValue none (presentOf (inputsOf algorithm.steps result readings).exact rungsBefore) =
        some c.before ∧
      (inputsOf algorithm.steps result readings).constraintsExact = some bound ∧
      lastValue none (presentOf (rungValue algorithm.steps result) rungsBefore) = some bound ∧
      side.farSide c.before bound = true := by
  obtain ⟨c, hc, side, bound, r, hb, hlb, hlast, hr, hexact⟩ := h.exists_placed hp
  obtain ⟨e, he, hread⟩ := exists_clampStep h.readings hc
  have hleft := (h.engine_of_reads he hread).2.2
  have hs : c.source = e.2.1 := by obtain ⟨n, _, rfl⟩ := hread; rfl
  have hin := (inPlace_of_placed h.placement he (h.engine.named e he) (hs ▸ hr)).2
  have hval : rungExact algorithm.steps result r = some (.finite bound) := by
    rw [← clampValue_eq_bound hb, ← hleft r (hs ▸ hr) hin, rungExact, hr, hs]; rfl
  refine ⟨c, side, bound, hlb, ?_, ?_, ?_, farSide_of_uncrossed hb (ha.uncrossed c hc)⟩
  · rw [h.lastValue_before h.engine.exact.isSome_exact, hlast, Option.bind_some, hexact, if_pos rfl]
  · have hsrc : exactRead result c.source = some (.finite bound) := by
      rwa [rungExact, hr, Option.bind_some] at hval
    simp [LadderReads.finite, readsOf, List.ne_nil_of_mem hc, hlast, hr, hsrc, Number.toRat?]
  · rw [h.lastValue_before fun _ => rfl, hlast, Option.bind_some, rungValue, hval]; rfl

theorem explained_iff (h : Scored algorithm result codes readings)
    (ha : Placed algorithm result codes readings) {v : ℚ}
    (hv : rungValue algorithm.steps result payablePremium = some v) :
    Explained (inputsOf algorithm.steps result readings) none rungOrder ↔
      ∀ p ∈ lastValue none (presentOf (rungValue algorithm.steps result)
        (rungsBefore ++ rungsBetween)), v = p := by
  have hpay : (inputsOf algorithm.steps result readings).exact payablePremium = some v := by
    have hx := @presentOf_after _ _ _ _ h [payablePremium] (by decide)
    cases he : (inputsOf algorithm.steps result readings).exact payablePremium <;>
      simp [presentOf, hv, he] at hx
    rw [hx]
  have hafter : ∀ prev, Explained (inputsOf algorithm.steps result readings) prev rungsAfter ↔
      ∀ p ∈ lastValue prev (presentOf (rungValue algorithm.steps result) rungsBetween), v = p := by
    intro prev
    rw [show rungsAfter = rungsBetween ++ [payablePremium] from rfl,
      explained_append (by decide) (by decide), explained_payable hpay,
      h.presentOf_after (by decide)]
  rw [rungOrder, explained_append (by decide) (by decide),
    presentOf_append (rungValue algorithm.steps result), lastValue_append]
  by_cases hp : (inputsOf algorithm.steps result readings).placedBinding = []
  · rw [← hafter, exact_of_unplaced hp]
    cases lastValue none (presentOf (rungValue algorithm.steps result) rungsBefore) <;>
      simp [Explained, hp]
  · obtain ⟨c, side, bound, hlb, hprev, hce, hbound, hfar⟩ := h.exists_clamped ha hp
    rw [hprev, hbound, ← hafter]
    simp [Explained, hlb, hce, hfar]

theorem carry_eq (h : Scored algorithm result codes readings)
    (ha : Placed algorithm result codes readings) :
    carry (inputsOf algorithm.steps result readings) none rungOrder =
      carryAlong none (replayedRungs algorithm.steps result) := by
  rw [rungOrder, carry_append, carry_constraints, @carry_eq_carryAlong _ rungsBefore (by decide),
    @carry_eq_carryAlong _ rungsAfter (by decide),
    @presentOf_after _ _ _ _ h rungsAfter (by decide), replayedRungs]
  by_cases hp : (inputsOf algorithm.steps result readings).placedBinding = []
  · have hf := (h.any_fired ha).not.mpr (not_not.mpr hp)
    rw [if_neg hf, carryAlong_append, exact_of_unplaced hp, hp]
    cases carryAlong none (presentOf (rungValue algorithm.steps result) rungsBefore) <;> rfl
  · obtain ⟨c, side, bound, hlb, hprev, hce, hbound, hfar⟩ := h.exists_clamped ha hp
    obtain ⟨e, he⟩ := Option.isSome_iff_exists.mp (@isSome_carryAlong
      (presentOf (inputsOf algorithm.steps result readings).exact rungsBefore) none
      (Or.inl fun hn => by rw [hn] at hprev; cases hprev))
    obtain ⟨x, hx, rfl⟩ : ∃ x, (presentOf (rungValue algorithm.steps result)
        rungsBefore).getLast? = some x ∧ x.2 = bound := by
      simpa [lastValue] using hbound
    rw [he, if_pos ((h.any_fired ha).mpr hp), hlb, hce, hx]
    rfl

theorem fired_iff_of_uncrossed (h : Scored algorithm result codes readings)
    {e : RatingStep × String × String} (he : e ∈ clampSteps algorithm.steps)
    (hr : Reads result codes e c)
    (hu : ∀ l m, c.minimum = some l → c.maximum = some m → c.before ≤ m → l ≤ m) :
    fired result e.1 = true ↔ (bindingSide c).isSome := by
  rw [(h.engine_of_reads he hr).2.1]
  cases hb : bindingSide c with
  | none => simp [bindingSide_eq_none hb]
  | some x =>
    simp only [Option.isSome_some, iff_true]
    intro hv
    obtain ⟨l, m, hl, hm, hle, hlt⟩ := crossed_of_unmoved hb hv
    exact absurd (hu l m hl hm hle) (not_le.mpr hlt)

theorem placed_of_reconciles (h : Scored algorithm result codes readings)
    (hr : Reconciles (inputsOf algorithm.steps result readings)) :
    Placed algorithm result codes readings := by
  have huncrossed : ∀ c ∈ readings, ∀ l m, c.minimum = some l → c.maximum = some m →
      c.before ≤ m → l ≤ m := by
    intro c hc l m hl hm hb
    by_contra hx
    -- the crossed clamp is the one placed, and its bound is on the near side
    have hbind := bindingSide_of_crossed hl hm hb (not_le.mp hx)
    have hs := hr.placed c hc (by simp [hbind])
    have hp := List.ne_nil_of_mem (mem_placedBinding.mpr ⟨c, hc, hs, hbind⟩)
    obtain ⟨c', hc', side, bound, r, hb', hlb, hlast, hsrc, hexact⟩ := h.exists_placed hp
    have hs' : some c.source = some c'.source :=
      hs.trans ((congrArg (Option.bind · (rungSource algorithm.steps)) hlast).trans hsrc)
    obtain rfl := h.reading_unique hc' hc hsrc (Option.some.inj hs')
    obtain ⟨rfl, rfl⟩ := Prod.mk.inj (Option.some.inj (hbind.symm.trans hb'))
    have he := hr.explained
    have hprev : lastValue none (presentOf (inputsOf algorithm.steps result readings).exact
        rungsBefore) = some c'.before := by
      rw [h.lastValue_before h.engine.exact.isSome_exact, hlast, Option.bind_some, hexact, if_pos rfl]
    rw [rungOrder, explained_append (by decide) (by decide), hprev] at he
    simp only [Explained, if_true, hlb] at he
    simpa [BoundSide.farSide, not_lt.mpr hb] using he.1.2
  exact ⟨fun e he c hc hread => h.fired_iff_of_uncrossed he hread (huncrossed c hc), hr.placed,
    huncrossed⟩

theorem placed_of_tallies (h : Scored algorithm result codes readings)
    (ht : Tallies algorithm.steps result) : Placed algorithm result codes readings := by
  have huncrossed : ∀ c ∈ readings, ∀ l m, c.minimum = some l → c.maximum = some m →
      c.before ≤ m → l ≤ m := by
    intro c hc l m hl hm
    obtain ⟨e, he, ⟨before, lo, hi⟩, hn, rfl⟩ := exists_clampStep h.readings hc
    obtain rfl : lo = some l := hl
    obtain rfl : hi = some m := hm
    exact ht.uncrossed e he before l m hn
  refine ⟨fun e he c hc hread => h.fired_iff_of_uncrossed he hread (huncrossed c hc),
    fun c hc hb => ?_, huncrossed⟩
  obtain ⟨e, he, hread⟩ := exists_clampStep h.readings hc
  have hs : c.source = e.2.1 := by obtain ⟨n, _, rfl⟩ := hread; rfl
  obtain ⟨r, hv, hr⟩ := ht.onRung e he
    ((h.fired_iff_of_uncrossed he hread (huncrossed c hc)).mpr hb)
  have hplace := (inPlace_of_placed h.placement he (h.engine.named e he) hr).1
  have hlast := lastBefore_of_placeable hplace.symm
    (by rwa [h.engine.exact.rungExact_eq, Option.isSome_map] : (rungExact algorithm.steps result r).isSome)
  exact ((congrArg (Option.bind · (rungSource algorithm.steps)) hlast).trans (hs ▸ hr)).symm

theorem inDisposition_iff (h : Scored algorithm result codes readings)
    {e : RatingStep × String × String} (hr : Reads result codes e c) :
    c.inDisposition = true ↔ ∃ s ∈ algorithm.steps, fired result s = true ∧
      s.violation? = some (.clamp, e.2.2) := by
  obtain ⟨_, hd⟩ := h.disposition
  obtain ⟨n, _, rfl⟩ := hr
  rw [← mem_clampCodes hd, readingOf, List.contains_iff_mem]

theorem reconciles_iff (h : Scored algorithm result codes readings) :
    Reconciles (inputsOf algorithm.steps result readings) ↔ Tallies algorithm.steps result := by
  have hpay : (inputsOf algorithm.steps result readings).exact payablePremium =
      rungValue algorithm.steps result payablePremium := by
    have hx := @presentOf_after _ _ _ _ h [payablePremium] (by decide)
    cases he : (inputsOf algorithm.steps result readings).exact payablePremium <;>
      cases hv : rungValue algorithm.steps result payablePremium <;>
      simp [presentOf, hv, he] at hx ⊢
    exact hx
  have hround : ∀ v, rungValue algorithm.steps result payablePremium = some v →
      (inputsOf algorithm.steps result readings).rounding payablePremium =
        rungRounding algorithm.steps payablePremium := by
    intro v hv
    simp [LadderReads.finite, readsOf, h.engine.exact.rungExact_eq, hv]
  constructor
  · intro hr
    have ha := h.placed_of_reconciles hr
    obtain ⟨v, d, run, hv, hd, hrun, heq⟩ := hr.payable
    rw [hpay] at hv
    rw [hround v hv] at hd
    refine ⟨fun e he hf => ?_, fun e he before l m hn => ?_, fun e he hf s hs hfs hvs => ?_,
      ⟨v, hv, (h.explained_iff ha hv).mp hr.explained⟩, fun v' d' hv' hd' => ?_⟩
    · obtain ⟨c, hc, hread⟩ := exists_reading h.readings he
      have hs : c.source = e.2.1 := by obtain ⟨n, _, rfl⟩ := hread; rfl
      obtain ⟨r, hlast, hsrc⟩ := Option.bind_eq_some_iff.mp
        (ha.source c hc ((ha.fired_iff e he c hc hread).mp hf)).symm
      refine ⟨r, ?_, hs ▸ hsrc⟩
      obtain ⟨_, _, n, _, _, hn⟩ := lastBefore_eq_some hlast
      rw [← @Option.isSome_map _ _ Number.finite, ← h.engine.exact.rungExact_eq, hn]
      rfl
    · obtain ⟨c, hc, n, hn', rfl⟩ := exists_reading h.readings he
      rw [hn] at hn'
      obtain rfl := Except.ok.inj hn'
      exact ha.uncrossed _ hc l m rfl rfl
    · obtain ⟨c, hc, hread⟩ := exists_reading h.readings he
      have hin := (h.inDisposition_iff hread).mpr ⟨s, hs, hfs, hvs⟩
      rw [← hr.disposed c hc, ← ha.fired_iff e he c hc hread, hf] at hin
      cases hin
    · obtain rfl := Option.some.inj (hv.symm.trans hv')
      obtain rfl := Option.some.inj (hd.symm.trans hd')
      rw [h.carry_eq ha] at hrun
      obtain ⟨x, hx, rfl⟩ := Option.map_eq_some_iff.mp hrun
      simp [hx, heq]
  · intro ht
    have ha := h.placed_of_tallies ht
    obtain ⟨v, hv, hkept⟩ := ht.payable
    obtain ⟨d, hd⟩ := Option.isSome_iff_exists.mp
      (h.engineInputs.rounding payablePremium v (hpay.trans hv))
    have hd' := (hround v hv).symm.trans hd
    refine ⟨ha.source, fun c hc => ?_, (h.explained_iff ha hv).mpr hkept, ?_⟩
    · obtain ⟨e, he, hread⟩ := exists_clampStep h.readings hc
      rw [Bool.eq_iff_iff, ← ha.fired_iff e he c hc hread, h.inDisposition_iff hread]
      obtain ⟨hs, hviol, _⟩ := mem_clampSteps.mp he
      refine ⟨fun hf => ⟨e.1, hs, hf, hviol⟩, ?_⟩
      rintro ⟨s, hs', hfs, hvs⟩
      by_contra hf
      exact ht.codes e he (Bool.not_eq_true _ ▸ hf) s hs' hfs hvs
    · obtain ⟨x, hx, heq⟩ := Option.map_eq_some_iff.mp (ht.carried v d hv hd')
      exact ⟨v, d, x.2, hpay.trans hv, hd, by rw [h.carry_eq ha, hx]; rfl, heq⟩

end Scored

/-- The ladder of an engine result passes the check exactly when it is empty or it tallies. -/
theorem scoredLadder_reconciles_iff {algorithm : RatingAlgorithm} {inputs : LadderInputs}
    {ladder : List LadderRung} (hplace : checkClampPlacement algorithm.toRatingAlgorithmDraft = [])
    (hengine : EngineResult algorithm.steps result)
    (hl : scoredLadder algorithm.toRatingAlgorithmDraft result = .ok (inputs, ladder)) :
    ladderViolations ladder inputs = [] ↔
      (∀ r, rungValue algorithm.steps result r = none) ∨ Tallies algorithm.steps result := by
  obtain ⟨declines, codes, readings, hd, hr, rfl, rfl⟩ := scoredLadder_eq_ok hl
  have h : Scored algorithm.toRatingAlgorithmDraft result codes readings :=
    ⟨algorithm.graph_ok, hplace, hengine, ⟨declines, hd⟩, clampReadings_eq_ok (fun e he => by
      obtain ⟨_, _, _, hn, _⟩ := hengine.reads e he
      exact ⟨_, hn⟩) hr⟩
  have hnone : ∀ r, (inputsOf algorithm.steps result readings).exact r = none ↔
      rungValue algorithm.steps result r = none := fun r => by
    rw [← Option.isNone_iff_eq_none, ← Option.isNone_iff_eq_none, ← Option.not_isSome,
      ← Option.not_isSome, h.engine.exact.isSome_exact r]
  rw [ladderViolations_buildLadder h.engineInputs ((hnone constraints).mpr rfl), h.reconciles_iff]
  simp only [hnone]

section Example

def capStep : RatingStep where
  stepId := "cap"
  consumes := ["rate"]
  produces := ["rate"]
  kind := .constraint "rate <= 2" .clamp (some ⟨[("max", "2")], by decide⟩) "CAP"

/-- A cap on a relativity, which no rung reads. -/
def rateCap : RatingAlgorithm where
  slug := "motor"
  version := 1
  inputContract := [{ name := "base", type := .decimal }]
  outputs := [{ name := "risk_premium_minor", type := "money_minor" },
    { name := "payable_premium_minor", type := "money_minor" }]
  steps := [
    { stepId := "in", consumes := [], produces := ["base"], kind := .input "base" .error },
    { stepId := "load", consumes := ["base"], produces := ["rate"],
      kind := .expression "base * 1.5" "decimal" },
    capStep,
    { stepId := "price", consumes := ["rate"], produces := ["risk"],
      kind := .expression "rate * 100" "money_minor" },
    { stepId := "risk_out", consumes := ["risk"], produces := [],
      kind := .output "risk_premium_minor" ⟨.halfEven, 0⟩ },
    { stepId := "payable_out", consumes := ["risk"], produces := [],
      kind := .output "payable_premium_minor" ⟨.halfEven, 0⟩ }]
  subGraphs := []
  graph_ok := by decide

/-- The result for a base of 2: the rate 3 is capped at 2. -/
def rateCapResult : Context := fun key =>
  [("base", .int 2), ("rate", .int 2), ("cap__violated", .bool true), ("cap__before", .text "3"),
    ("cap__max", .text "2"), ("risk", .int 200), ("__exact__risk", .text "200")].lookup key

theorem rateCapResult_engine : EngineResult rateCap.steps rateCapResult where
  exact r n hn := by
    have hall : ∀ r, rungExact rateCap.steps rateCapResult r = none ∨
        rungExact rateCap.steps rateCapResult r = some (.finite 200) := by
      intro r; cases r <;> with_unfolding_all decide
    rcases hall r with h | h
    · rw [h] at hn; cases hn
    · rw [h] at hn
      exact ⟨200, (Option.some.inj hn).symm, 200, by norm_num, 0, by norm_num, by norm_num⟩
  named := by decide
  reads e he := by
    obtain rfl : e = (capStep, "rate", "CAP") :=
      (by decide : ∀ e ∈ clampSteps rateCap.steps, e = (capStep, "rate", "CAP")) e he
    refine ⟨3, none, some 2, by with_unfolding_all decide, ⟨3, by norm_num, 0, by norm_num, by norm_num⟩,
      by decide, fun r => ?_⟩
    cases r <;> decide

theorem rateCap_reconciles_iff : ∃ inputs ladder,
    scoredLadder rateCap.toRatingAlgorithmDraft rateCapResult = .ok (inputs, ladder) ∧
      (ladderViolations ladder inputs = [] ↔
        (∀ r, rungValue rateCap.steps rateCapResult r = none) ∨
          Tallies rateCap.steps rateCapResult) := by
  have hok : (scoredLadder rateCap.toRatingAlgorithmDraft rateCapResult).isOk = true := by
    with_unfolding_all decide
  obtain ⟨⟨inputs, ladder⟩, h⟩ := exists_ok hok
  exact ⟨inputs, ladder, h, scoredLadder_reconciles_iff (by decide) rateCapResult_engine h⟩

/-- The binding cap is on no rung, so the correctly priced quote does not reconcile. -/
theorem rateCap_not_reconciled :
    checkClampPlacement rateCap.toRatingAlgorithmDraft = [] ∧
      EngineResult rateCap.steps rateCapResult ∧
      (scoredLadder rateCap.toRatingAlgorithmDraft rateCapResult).map
        (fun e => ladderViolations e.2 e.1) =
          .ok [.clampNotPlaced "cap" "rate" (some "risk")] :=
  ⟨by decide, rateCapResult_engine, by with_unfolding_all decide⟩

end Example

end GiPricing
