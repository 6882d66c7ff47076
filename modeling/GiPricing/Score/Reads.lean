import GiPricing.Ladder.Reconcile
import GiPricing.Score.Ladder

/-! # What the ladder reads

The inputs of the check are numbers of the engine wherever the result holds them, and the rung
a clamp binds on is read before that clamp.
-/

namespace GiPricing

open Decimal Failure LadderRungName

variable {steps : List RatingStep} {result : Context} {codes : List String}
  {readings : List ClampReading} {c : ClampReading} {r : LadderRungName}

def rungValue (steps : List RatingStep) (result : Context) (r : LadderRungName) : Option ℚ :=
  (rungExact steps result r).bind Number.toRat?

/-- The rungs of a result hold numbers of the engine. -/
def RungNumbers (steps : List RatingStep) (result : Context) : Prop :=
  ∀ r n, rungExact steps result r = some n → ∃ q, n = .finite q ∧ EngineNumber q

abbrev inputsOf (steps : List RatingStep) (result : Context) (readings : List ClampReading) :
    LadderInputs := (readsOf steps result readings).finite

/-! ## Clamp steps and their readings -/

theorem mem_clampSteps {e : RatingStep × String × String} :
    e ∈ clampSteps steps ↔ e.1 ∈ steps ∧ e.1.violation? = some (.clamp, e.2.2) ∧
      e.1.produces.head? = some e.2.1 := by
  obtain ⟨s, produced, code⟩ := e
  simp only [clampSteps, List.mem_filterMap]
  constructor
  · rintro ⟨s', hs, h⟩
    split at h
    · rename_i hk hp
      obtain ⟨rfl, rfl, rfl⟩ := by simpa using h
      exact ⟨hs, by simp [RatingStep.violation?, hk], by simp [hp]⟩
    · cases h
  · rintro ⟨hs, hv, hp⟩
    refine ⟨s, hs, ?_⟩
    obtain ⟨rest, hrest⟩ : ∃ rest, s.produces = produced :: rest := by
      cases hl : s.produces with
      | nil => simp [hl] at hp
      | cons a t => exact ⟨t, by rw [hl] at hp; rw [Option.some.inj hp]⟩
    cases hk : s.kind <;> simp [RatingStep.violation?, hk] at hv
    obtain ⟨rfl, rfl⟩ := hv
    simp [hrest]

def readingOf (codes : List String) (e : RatingStep × String × String)
    (n : ℚ × Option ℚ × Option ℚ) : ClampReading :=
  ⟨e.1.stepId, e.2.2, e.2.1, n.1, n.2.1, n.2.2, codes.contains e.2.2⟩

def Reads (result : Context) (codes : List String) (e : RatingStep × String × String)
    (c : ClampReading) : Prop :=
  ∃ n, clampNumbers result e.1 = .ok n ∧ c = readingOf codes e n

theorem Reads.unique {e : RatingStep × String × String} {c c' : ClampReading}
    (h : Reads result codes e c) (h' : Reads result codes e c') : c = c' := by
  obtain ⟨n, hn, rfl⟩ := h
  obtain ⟨n', hn', rfl⟩ := h'
  rw [hn] at hn'
  rw [Except.ok.inj hn']

theorem clampReading_eq_ok {s : RatingStep} {source code : String} {n : ℚ × Option ℚ × Option ℚ}
    (h : clampNumbers result s = .ok n) :
    clampReading result codes s source code =
      .ok (some ⟨s.stepId, code, source, n.1, n.2.1, n.2.2, codes.contains code⟩) := by
  have hne : result.read (beforeKey s.stepId) ≠ .null := by
    intro hnull
    simp [clampNumbers, hnull, orderedDecimal, Value.asDecimal, bind, Except.bind] at h
  simp [clampReading, hne, h, Except.map]

/-! ## Values of the rungs -/

theorem lastBefore_eq_some {r : LadderRungName} (h : lastBefore steps result = some r) :
    r ∈ rungsBefore ∧ ∃ name n, rungSource steps r = some name ∧ exactRead result name = some n ∧
      rungExact steps result r = some n := by
  obtain ⟨hr, he⟩ := List.mem_filter.mp (List.mem_of_getLast? h)
  obtain ⟨n, hn⟩ := Option.isSome_iff_exists.mp he
  obtain ⟨name, hname, hread⟩ := Option.bind_eq_some_iff.mp hn
  exact ⟨hr, name, n, hname, hread, hn⟩

theorem RungNumbers.rungExact_eq (h : RungNumbers steps result) (r : LadderRungName) :
    rungExact steps result r = (rungValue steps result r).map .finite := by
  unfold rungValue
  cases he : rungExact steps result r with
  | none => rfl
  | some n =>
    obtain ⟨q, rfl, _⟩ := h r n he
    rfl

theorem RungNumbers.engineNumber (h : RungNumbers steps result) {v : ℚ}
    (hv : rungValue steps result r = some v) : EngineNumber v := by
  have he := h.rungExact_eq r
  rw [hv] at he
  obtain ⟨q, hq, hn⟩ := h r _ he
  cases hq
  exact hn

theorem mem_of_bindingFirst {source : Option String} (h : bindingFirst readings source = some c) :
    c ∈ readings ∧ (bindingSide c).isSome ∧ some c.source = source := by
  have hp := List.find?_some h
  simp only [Bool.and_eq_true, decide_eq_true_eq] at hp
  exact ⟨List.mem_of_find?_eq_some h, hp⟩

/-- The clamped rung is read before the clamp, any other as the engine left it. -/
theorem exact_inputsOf (r : LadderRungName) :
    (inputsOf steps result readings).exact r =
      (((bindingFirst readings ((lastBefore steps result).bind (rungSource steps))).filter
        fun _ => some r = lastBefore steps result).map ClampReading.before).or
          (rungValue steps result r) := by
  simp only [LadderReads.finite, readsOf]
  cases (bindingFirst readings ((lastBefore steps result).bind (rungSource steps))).filter
    fun _ => some r = lastBefore steps result <;> rfl

/-- The clamped rung has a value of its own. -/
theorem RungNumbers.isSome_exact (h : RungNumbers steps result) (r : LadderRungName) :
    ((inputsOf steps result readings).exact r).isSome = (rungValue steps result r).isSome := by
  rw [exact_inputsOf]
  by_cases hr : some r = lastBefore steps result
  · obtain ⟨_, _, n, _, _, hn⟩ := lastBefore_eq_some hr.symm
    have hs : (rungValue steps result r).isSome := by
      rw [← @Option.isSome_map _ _ Number.finite, ← h.rungExact_eq, hn]; rfl
    simp [hs]
  · simp [hr]

theorem mem_placedBinding {x : BoundSide × ℚ} :
    x ∈ (inputsOf steps result readings).placedBinding ↔ ∃ c ∈ readings,
      some c.source = (lastBefore steps result).bind (rungSource steps) ∧
        bindingSide c = some x := by
  simp only [LadderInputs.placedBinding, LadderReads.finite, readsOf, List.mem_filterMap,
    List.mem_filter, decide_eq_true_eq, and_assoc]

theorem exact_of_unplaced (hp : (inputsOf steps result readings).placedBinding = []) :
    (inputsOf steps result readings).exact = rungValue steps result := by
  have hnone : bindingFirst readings ((lastBefore steps result).bind (rungSource steps)) = none := by
    cases hf : bindingFirst readings ((lastBefore steps result).bind (rungSource steps)) with
    | none => rfl
    | some c =>
      obtain ⟨hc, hb, hs⟩ := mem_of_bindingFirst hf
      obtain ⟨x, hx⟩ := Option.isSome_iff_exists.mp hb
      have hm := mem_placedBinding.mpr ⟨c, hc, hs, hx⟩
      rw [hp] at hm
      cases hm
  funext r
  rw [exact_inputsOf, hnone]
  rfl

/-- Inputs read from numbers of the engine satisfy what the check of a built ladder needs. -/
theorem RungNumbers.engineInputs (h : RungNumbers steps result)
    (hc : ∀ c ∈ readings, EngineNumber c.before) : EngineInputs (inputsOf steps result readings) where
  exact r v hv := by
    rw [exact_inputsOf] at hv
    rcases Option.or_eq_some_iff.mp hv with hv | ⟨_, hv⟩
    · obtain ⟨c, hf, rfl⟩ := Option.map_eq_some_iff.mp hv
      exact hc c (mem_of_bindingFirst (Option.filter_eq_some_iff.mp hf).1).1
    · exact h.engineNumber hv
  rounding r v hv := by
    have hs : (rungValue steps result r).isSome := by
      rw [← h.isSome_exact, hv]; rfl
    obtain ⟨q, hq⟩ := Option.isSome_iff_exists.mp hs
    obtain ⟨n, hn, _⟩ := Option.bind_eq_some_iff.mp hq
    obtain ⟨name, hname, _⟩ := Option.bind_eq_some_iff.mp hn
    simp only [LadderReads.finite, readsOf, hn, Option.isSome_some, if_true]
    unfold rungSource at hname
    split at hname
    · cases hname
    · obtain ⟨e, he, _⟩ := Option.bind_eq_some_iff.mp hname
      simp [rungRounding, he]
  constraintsExact v hv := by
    obtain ⟨n, hn, hv⟩ := Option.bind_eq_some_iff.mp hv
    simp only [readsOf] at hn
    split at hn
    · cases hn
    · obtain ⟨name, hname, hread⟩ := Option.bind_eq_some_iff.mp hn
      obtain ⟨r, hlast, hr⟩ := Option.bind_eq_some_iff.mp hname
      refine @RungNumbers.engineNumber _ _ r h v ?_
      simp [rungValue, rungExact, hr, hread, hv]
  placed hp := by
    obtain ⟨x, hx⟩ := List.exists_mem_of_ne_nil _ hp
    obtain ⟨c, hc, hs, _⟩ := mem_placedBinding.mp hx
    obtain ⟨r, hlast, _⟩ := Option.bind_eq_some_iff.mp hs.symm
    obtain ⟨_, name, n, hname, hread, hn⟩ := lastBefore_eq_some hlast
    have he := h.rungExact_eq r
    rw [hn] at he
    obtain ⟨q, _, rfl⟩ := Option.map_eq_some_iff.mp he.symm
    simp [LadderReads.finite, readsOf, List.ne_nil_of_mem hc, hlast, hname, hread, Number.toRat?]

end GiPricing
