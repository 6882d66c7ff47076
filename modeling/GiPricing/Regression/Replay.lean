import GiPricing.Failure.Lists
import GiPricing.Regression.Properties
import GiPricing.Runtime.Compiled

/-! # Running and replaying a suite

A run generates cases, judges every property over them and keeps what it generated; a replay
judges the same properties over the cases read back from the store, and generates nothing.
-/

namespace GiPricing

open Failure

inductive Status | pass | fail
  deriving DecidableEq, Repr

/-! ## Golden quotes -/

structure GoldenQuote where
  name : String
  context : QuoteContext
  outcome : ScoringOutcome
  payablePremiumMinor : Option ℤ
  toleranceMinor : ℤ

structure GoldenQuoteResult where
  name : String
  status : Status
  expectedMinor : Option ℤ
  actualMinor : Option ℤ
  differenceMinor : Option ℤ
  deriving DecidableEq

section Golden

variable (host : Host) (engine : Engine) (models : Models) (bundle : CompiledBundle)

/-- A refused quote fails; a value of a wrong type is raised. -/
def evaluateOne (quote : GoldenQuote) : Except Raised GoldenQuoteResult :=
  match scoreContextSync host engine models bundle quote.context with
  | .error e =>
    if e.isRefusal && e ≠ .typeError then
      .ok ⟨quote.name, .fail, quote.payablePremiumMinor, none, none⟩
    else .error e
  | .ok scored =>
    let actual := payableMinor scored
    let difference := actual.bind fun a => quote.payablePremiumMinor.map (a - ·)
    let passed := scored.outcome = quote.outcome &&
      (quote.outcome ≠ .quoted || difference.any fun d => |d| ≤ quote.toleranceMinor)
    .ok ⟨quote.name, if passed then .pass else .fail, quote.payablePremiumMinor, actual, difference⟩

def evaluateGoldenQuotes (quotes : List GoldenQuote) : Except Raised (List GoldenQuoteResult) :=
  quotes.mapM (evaluateOne host engine models bundle)

end Golden

/-! ## Suites and runs -/

structure RegressionProperty where
  name : String
  check : PropertyCheck
  deriving DecidableEq

/-- A suite of golden quotes and of properties, each under its own name. -/
structure RegressionSuite where
  contentHash : String
  goldenQuotes : List GoldenQuote
  properties : List RegressionProperty
  cases : ℕ
  seed : ℕ
  names_nodup : (properties.map RegressionProperty.name).Nodup

inductive ShrinkEnd | completed | stoppedOnLimit
  deriving DecidableEq, Repr

structure PropertyResult where
  name : String
  status : Status
  casesRun : ℕ
  counterexample : Option (Dict Value) := none
  counterexampleMinimal : Bool := false
  shrink : Option ShrinkEnd := none
  errorCode : Option String := none
  grid : Option GridKind
  counterexamplePoints : Option (Value × Value) := none
  deriving DecidableEq

structure RunGeneration where
  seed : ℕ
  cases : ℕ
  hypothesisVersion : String
  deriving DecidableEq

structure RegressionRun where
  suiteContentHash : String
  bundleHash : String
  overall : Status
  generation : RunGeneration
  goldenResults : List GoldenQuoteResult
  propertyResults : List PropertyResult
  deriving DecidableEq

def propertyFailed : String := "PROPERTY_ASSERTION_FAILED"
def noComparablePairs : String := "MONOTONE_NO_COMPARABLE_PAIRS"

/-- `build_run`: a run passes when every golden quote and every property does. -/
def buildRun (suite : RegressionSuite) (bundleHash : String) (generation : RunGeneration)
    (golden : List GoldenQuoteResult) (results : List PropertyResult) : RegressionRun where
  suiteContentHash := suite.contentHash
  bundleHash := bundleHash
  overall := if (golden.all fun g => g.status = .pass) && results.all fun r => r.status = .pass then
    .pass else .fail
  generation := generation
  goldenResults := golden
  propertyResults := results

/-! ## The log as a whole -/

/-- The cases a run generated, and its counterexamples by the names of their properties. -/
structure CasesLog (contract : List InputContractField) where
  cases : List (Case contract)
  counterexamples : List (String × Case contract)

structure StoredLog where
  cases : List StoredCase
  counterexamples : List (String × StoredCase)
  deriving DecidableEq

structure LoadedLog where
  cases : List QuoteContext
  counterexamples : List (String × QuoteContext)

def CasesLog.store {contract : List InputContractField} (log : CasesLog contract) : StoredLog where
  cases := log.cases.map Case.store
  counterexamples := sortedEntries (log.counterexamples.map fun e => (e.1, e.2.store))

def StoredLog.load (log : StoredLog) : Option LoadedLog := do
  let cases ← log.cases.mapM StoredCase.load
  let counterexamples ← log.counterexamples.mapM fun e => e.2.load.map (e.1, ·)
  return ⟨cases, counterexamples⟩

/-- What a generator of some version gives for a contract: its cases, the contexts it tries when
it shrinks a property in their order, and whether that shrink was stopped on a limit. -/
structure Generator (contract : List InputContractField) where
  version : String
  cases : List (Case contract)
  explored : PropertyCheck → List (Case contract)
  stopped : PropertyCheck → Bool

def firstFailing {α : Type} (holds : α → Except Raised Bool) : List α → Except Raised (Option α)
  | [] => .ok none
  | a :: l => do if ← holds a then firstFailing holds l else return some a

/-- The last element a check does not hold of. -/
def lastFailing {α : Type} (holds : α → Except Raised Bool) (found : Option α) :
    List α → Except Raised (Option α)
  | [] => .ok found
  | a :: l => do if ← holds a then lastFailing holds found l else lastFailing holds (some a) l

section Judge

variable (randints : String → ℤ → ℤ → List ℤ) (seed : ℕ) (score : Scorer)
  (contract : List InputContractField) (outputs : List String)

/-- A monotone property that compared nothing must not pass. -/
def comparesSomething (check : PropertyCheck) (contexts : List QuoteContext) :
    Except Raised Bool :=
  match check with
  | .monotone m => monotoneHasComparablePair randints seed score contract m contexts
  | _ => .ok true

/-- The result of a property that every case satisfies. -/
def satisfiedResult (prop : RegressionProperty) (contexts : List QuoteContext)
    (grid : Option GridKind) : Except Raised PropertyResult := do
  if ← comparesSomething randints seed score contract prop.check contexts then
    return { name := prop.name, status := .pass, casesRun := contexts.length, grid }
  else
    return { name := prop.name, status := .fail, casesRun := contexts.length, grid,
             shrink := some .completed, errorCode := some noComparablePairs }

/-! ## A run -/

variable (generator : Generator contract)

/-- The counterexample of a failing property: the last context the shrinker found failing, or the
first failing case. -/
def findCounterexample (check : PropertyCheck) : Except Raised (Case contract × Bool) := do
  let holds := fun c : Case contract =>
    caseHolds randints seed score contract outputs check c.context
  match ← lastFailing holds none (generator.explored check) with
  | some c => return (c, generator.stopped check)
  | none => match ← firstFailing holds generator.cases with
    | some c => return (c, true)
    | none => .error .assertion

def runProperty (prop : RegressionProperty) :
    Except Raised (PropertyResult × Option (Case contract)) := do
  let contexts := generator.cases.map Case.context
  let grid ← propertyGrid contract prop.check
  if ← contexts.allM (caseHolds randints seed score contract outputs prop.check) then
    let result ← satisfiedResult randints seed score contract prop contexts grid
    return (result, none)
  else
    let (found, stopped) ←
      findCounterexample randints seed score contract outputs generator prop.check
    let points ← counterexamplePoints randints seed score contract prop.check found.context
    return ({ name := prop.name, status := .fail, casesRun := generator.cases.length, grid,
              counterexample := some found.context.inputs, counterexampleMinimal := !stopped,
              shrink := some (if stopped then .stoppedOnLimit else .completed),
              errorCode := some propertyFailed, counterexamplePoints := points }, some found)

/-! ## A replay -/

/-- A persisted counterexample still fails. -/
def stillFails (holds : QuoteContext → Except Raised Bool) :
    Option QuoteContext → Except Raised Bool
  | none => .ok false
  | some c => (holds c).map not

/-- The result of a property that `shown` does not satisfy. A replay cannot shrink: what it says of
a shrink is what was recorded of the persisted counterexample. -/
def replayedFailure (recorded : RegressionRun) (prop : RegressionProperty) (casesRun : ℕ)
    (persistedStillFails : Bool) (shown : QuoteContext) (grid : Option GridKind)
    (points : Option (Value × Value)) : PropertyResult :=
  let was := recorded.propertyResults.reverse.find? fun r => r.name = prop.name
  let kept := if persistedStillFails then was else none
  { name := prop.name, status := .fail, casesRun, grid,
    counterexample := some shown.inputs,
    counterexampleMinimal := kept.any PropertyResult.counterexampleMinimal,
    shrink := some ((kept.bind PropertyResult.shrink).getD .stoppedOnLimit),
    errorCode := some propertyFailed, counterexamplePoints := points }

/-- One property over the cases and the counterexample read back. -/
def replayProperty (log : LoadedLog) (recorded : RegressionRun) (prop : RegressionProperty) :
    Except Raised PropertyResult := do
  let holds := caseHolds randints seed score contract outputs prop.check
  let grid ← propertyGrid contract prop.check
  let persisted := log.counterexamples.lookup prop.name
  let failing ← firstFailing holds log.cases
  let persistedStillFails ← stillFails holds persisted
  match if persistedStillFails then persisted else failing with
  | none => satisfiedResult randints seed score contract prop log.cases grid
  | some shown =>
    let points ← counterexamplePoints randints seed score contract prop.check shown
    return replayedFailure recorded prop log.cases.length persistedStillFails shown grid points

end Judge

section Suite

variable (randints : String → ℤ → ℤ → List ℤ) (host : Host) (engine : Engine) (models : Models)
  (bundle : CompiledBundle) (suite : RegressionSuite)

def CompiledBundle.outputNames : List String :=
  bundle.base.algorithm.outputs.map AlgorithmOutput.name

/-- A monotone property that cannot be swept is refused before anything is generated. -/
def checkSweepable (contract : List InputContractField) :
    PropertyCheck → Except Raised Unit
  | .monotone m => (monotoneField contract m).map fun _ => ()
  | _ => .ok ()

def runRegression (generator : Generator bundle.inputContract) :
    Except Raised (RegressionRun × CasesLog bundle.inputContract) := do
  suite.properties.forM fun prop => checkSweepable bundle.inputContract prop.check
  let golden ← evaluateGoldenQuotes host engine models bundle suite.goldenQuotes
  let results ← suite.properties.mapM (runProperty randints suite.seed
    (makeScorer host engine models bundle) bundle.inputContract bundle.outputNames generator)
  let run := buildRun suite bundle.contentHash ⟨suite.seed, suite.cases, generator.version⟩ golden
    (results.map Prod.fst)
  return (run, ⟨generator.cases, results.filterMap fun r => r.2.map (r.1.name, ·)⟩)

/-- `replay_cases`. A suite of another content is refused. -/
def replayCases (log : LoadedLog) (recorded : RegressionRun) : Except Raised RegressionRun := do
  if suite.contentHash ≠ recorded.suiteContentHash then .error .valueError
  else
    let golden ← evaluateGoldenQuotes host engine models bundle suite.goldenQuotes
    let results ← suite.properties.mapM (replayProperty randints suite.seed
      (makeScorer host engine models bundle) bundle.inputContract bundle.outputNames log recorded)
    return buildRun suite bundle.contentHash recorded.generation golden results

end Suite

/-! ## One property -/

section Property

variable {randints : String → ℤ → ℤ → List ℤ} {seed : ℕ} {score : Scorer}
  {contract : List InputContractField} {outputs : List String}

theorem firstFailing_of_allM {α β : Type} {p : α → Except Raised Bool} {q : β → Except Raised Bool}
    {l : List α} {m : List β} (h : List.Forall₂ (fun a b => p a = q b) l m) {b : Bool}
    (hall : l.allM p = .ok b) :
    ∃ r, firstFailing q m = .ok r ∧ (r = none ↔ b = true) ∧ ∀ x ∈ r, q x = .ok false := by
  induction h with
  | nil =>
    cases hall
    exact ⟨none, rfl, by simp, by simp⟩
  | @cons a x l m hax _ ih =>
    rw [List.allM, bind_eq_ok] at hall
    obtain ⟨c, hc, hrest⟩ := hall
    rw [firstFailing, ← hax, hc]
    cases c with
    | true => exact ih hrest
    | false =>
      cases hrest
      exact ⟨some x, rfl, by simp, by simpa using hax ▸ hc⟩

theorem lastFailing_fails {α : Type} {holds : α → Except Raised Bool} {l : List α}
    {found : Option α} {x : α} (hfound : ∀ a ∈ found, holds a = .ok false)
    (h : lastFailing holds found l = .ok (some x)) : holds x = .ok false := by
  induction l generalizing found with
  | nil =>
    cases h
    exact hfound x rfl
  | cons a l ih =>
    rw [lastFailing, bind_eq_ok] at h
    obtain ⟨b, hb, h⟩ := h
    cases b with
    | true => exact ih hfound h
    | false => exact ih (by simpa using hb) h

theorem firstFailing_fails {α : Type} {holds : α → Except Raised Bool} {l : List α} {x : α}
    (h : firstFailing holds l = .ok (some x)) : holds x = .ok false := by
  induction l with
  | nil => cases h
  | cons a l ih =>
    rw [firstFailing, bind_eq_ok] at h
    obtain ⟨b, hb, h⟩ := h
    cases b with
    | true => exact ih h
    | false =>
      cases h
      exact hb

theorem findCounterexample_fails {generator : Generator contract} {check : PropertyCheck}
    {r : Case contract × Bool}
    (h : findCounterexample randints seed score contract outputs generator check = .ok r) :
    caseHolds randints seed score contract outputs check r.1.context = .ok false := by
  simp only [findCounterexample, bind_eq_ok] at h
  obtain ⟨found, hlast, h⟩ := h
  cases found with
  | some c =>
    cases h
    have hfails := lastFailing_fails (by simp) hlast
    exact hfails
  | none =>
    obtain ⟨found, hfirst, h⟩ := bind_eq_ok.mp h
    cases found with
    | some c =>
      cases h
      have hfails := firstFailing_fails hfirst
      exact hfails
    | none => cases h

theorem comparesSomething_alike {check : PropertyCheck} {contexts contexts' : List QuoteContext}
    (h : List.Forall₂ (ScoredAlike score) contexts contexts') :
    comparesSomething randints seed score contract check contexts =
      comparesSomething randints seed score contract check contexts' := by
  cases check with
  | monotone m =>
    simp only [comparesSomething, monotoneHasComparablePair]
    congr 1
    funext f
    exact anyM_congr (h.imp fun _ _ hab => by rw [hab.monotoneSweep_eq])
  | premiumPositive => rfl
  | noNullOutput => rfl
  | ladderReconciles => rfl
  | premiumBounded l u => rfl

theorem satisfiedResult_name {prop : RegressionProperty} {contexts : List QuoteContext}
    {grid : Option GridKind} {r : PropertyResult}
    (h : satisfiedResult randints seed score contract prop contexts grid = .ok r) :
    r.name = prop.name := by
  obtain ⟨b, -, h⟩ := bind_eq_ok.mp h
  cases b <;> cases h <;> rfl

/-- What a run of one property says: every case satisfies it, or its counterexample fails. -/
theorem runProperty_cases {generator : Generator contract} {prop : RegressionProperty}
    {r : PropertyResult × Option (Case contract)}
    (h : runProperty randints seed score contract outputs generator prop = .ok r) :
    ∃ grid b, propertyGrid contract prop.check = .ok grid ∧
      (generator.cases.map Case.context).allM
        (caseHolds randints seed score contract outputs prop.check) = .ok b ∧
      r.1.name = prop.name ∧
      ((b = true ∧ satisfiedResult randints seed score contract prop
          (generator.cases.map Case.context) grid = .ok r.1 ∧ r.2 = none) ∨
        (b = false ∧ r.1.status = .fail ∧ ∃ c, r.2 = some c ∧
          caseHolds randints seed score contract outputs prop.check c.context = .ok false)) := by
  simp only [runProperty, bind_eq_ok] at h
  obtain ⟨grid, hgrid, b, hall, h⟩ := h
  cases b with
  | true =>
    obtain ⟨result, hresult, h⟩ := bind_eq_ok.mp h
    cases h
    exact ⟨grid, true, hgrid, hall, satisfiedResult_name hresult, Or.inl ⟨rfl, hresult, rfl⟩⟩
  | false =>
    obtain ⟨found, hfound, h⟩ := bind_eq_ok.mp h
    obtain ⟨points, -, h⟩ := bind_eq_ok.mp h
    cases h
    exact ⟨grid, false, hgrid, hall, rfl,
      Or.inr ⟨rfl, rfl, found.1, rfl, findCounterexample_fails hfound⟩⟩

/-- A property replayed over contexts scored as the cases were has the name and the status the run
gave it. -/
theorem replayProperty_reproduces {generator : Generator contract} {prop : RegressionProperty}
    {r : PropertyResult × Option (Case contract)} {log : LoadedLog} (recorded : RegressionRun)
    (h : runProperty randints seed score contract outputs generator prop = .ok r)
    (hcases : List.Forall₂ (ScoredAlike score) (generator.cases.map Case.context) log.cases)
    (hkept : ∀ ctx ∈ log.counterexamples.lookup prop.name,
      ∃ c, r.2 = some c ∧ ScoredAlike score c.context ctx) :
    ∃ r', replayProperty randints seed score contract outputs log recorded prop = .ok r' ∧
      r'.name = r.1.name ∧ r'.status = r.1.status := by
  obtain ⟨grid, b, hgrid, hall, hname, hr⟩ := runProperty_cases h
  obtain ⟨failing, hfailing, hnone, hfails⟩ := firstFailing_of_allM
    (q := caseHolds randints seed score contract outputs prop.check)
    (hcases.imp fun _ _ hab => hab.caseHolds_eq randints seed contract outputs prop.check) hall
  rcases hr with ⟨rfl, hresult, hfound⟩ | ⟨rfl, hstatus, c, hfound, hc⟩
  · have hlookup : log.counterexamples.lookup prop.name = none := by
      rw [Option.eq_none_iff_forall_not_mem]
      intro ctx hctx
      obtain ⟨c, hc, -⟩ := hkept ctx hctx
      rw [hfound] at hc
      cases hc
    have hsame : satisfiedResult randints seed score contract prop log.cases grid = .ok r.1 := by
      rw [← hresult, satisfiedResult, satisfiedResult, comparesSomething_alike hcases,
        hcases.length_eq]
    obtain rfl : failing = none := hnone.mpr rfl
    refine ⟨r.1, ?_, rfl, rfl⟩
    simp only [replayProperty, hlookup]
    exact bind_eq_ok.mpr ⟨grid, hgrid, bind_eq_ok.mpr ⟨none, hfailing, hsame⟩⟩
  · obtain ⟨x, hx⟩ := Option.ne_none_iff_exists'.mp fun hn => Bool.false_ne_true (hnone.mp hn)
    -- the persisted counterexample still fails, or there is none and a failing case is shown
    have hshown : ∃ still shown,
        stillFails (caseHolds randints seed score contract outputs prop.check)
          (log.counterexamples.lookup prop.name) = .ok still ∧
        (if still = true then log.counterexamples.lookup prop.name else failing) = some shown ∧
        caseHolds randints seed score contract outputs prop.check shown = .ok false := by
      cases hp : log.counterexamples.lookup prop.name with
      | none => exact ⟨false, x, rfl, hx, hfails x hx⟩
      | some ctx =>
        obtain ⟨c', hc', halike⟩ := hkept ctx hp
        obtain rfl : c = c' := Option.some.inj (hfound.symm.trans hc')
        have hctx := (halike.caseHolds_eq randints seed contract outputs prop.check).symm.trans hc
        exact ⟨true, ctx, by rw [stillFails, hctx]; rfl, rfl, hctx⟩
    obtain ⟨still, shown, hstill, hshown, hfail⟩ := hshown
    obtain ⟨points, hpoints⟩ := counterexamplePoints_ok hfail
    refine ⟨replayedFailure recorded prop log.cases.length still shown grid points,
      bind_eq_ok.mpr ⟨grid, hgrid, bind_eq_ok.mpr ⟨failing, hfailing,
        bind_eq_ok.mpr ⟨still, hstill, ?_⟩⟩⟩, hname.symm, hstatus.symm⟩
    simp only [hshown, hpoints]
    rfl

end Property

/-! ## A whole run -/

section Run

variable {contract : List InputContractField}

/-- A context that reads as a case: the case's own, but for the texts of its decimals. -/
def LoadedFrom (c : Case contract) (ctx : QuoteContext) : Prop :=
  ∃ inputs, ctx = generatedContext inputs ∧ ReadAs contract c.context.inputs inputs

theorem Case.exists_load (c : Case contract) :
    ∃ ctx, c.store.load = some ctx ∧ LoadedFrom c ctx := by
  obtain ⟨inputs, hload, hget⟩ := c.load_store
  exact ⟨_, hload, inputs, rfl, c.readAs hget⟩

theorem mem_of_lookup {α : Type} {l : List (String × α)} {k : String} {v : α}
    (h : l.lookup k = some v) : (k, v) ∈ l := by
  obtain ⟨l₁, l₂, rfl, -⟩ := List.lookup_eq_some_iff.mp h
  simp

theorem CasesLog.exists_load (log : CasesLog contract) :
    ∃ loaded, log.store.load = some loaded ∧ List.Forall₂ LoadedFrom log.cases loaded.cases ∧
      ∀ name, ∀ ctx ∈ loaded.counterexamples.lookup name,
        ∃ c, (name, c) ∈ log.counterexamples ∧ LoadedFrom c ctx := by
  have hcases : ∃ r, (log.cases.map Case.store).mapM StoredCase.load = some r ∧
      List.Forall₂ LoadedFrom log.cases r := by
    rw [List.mapM_map]
    exact exists_mapM_some fun c _ => c.exists_load
  obtain ⟨cases, hload, hfrom⟩ := hcases
  have hentries : ∃ r, log.store.counterexamples.mapM (fun e => e.2.load.map (e.1, ·)) = some r ∧
      List.Forall₂ (fun e x => ∃ c, (e.1, c) ∈ log.counterexamples ∧ x.1 = e.1 ∧ LoadedFrom c x.2)
        log.store.counterexamples r := by
    refine exists_mapM_some fun e he => ?_
    obtain ⟨⟨name, c⟩, hc, rfl⟩ := List.mem_map.mp ((sortedEntries_perm _).mem_iff.mp he)
    obtain ⟨ctx, hctx, hfrom⟩ := c.exists_load
    exact ⟨(name, ctx), by simp [hctx], c, hc, rfl, hfrom⟩
  obtain ⟨entries, hentries, hfrom'⟩ := hentries
  refine ⟨⟨cases, entries⟩, ?_, hfrom, ?_⟩
  · simp only [StoredLog.load]
    rw [show log.store.cases = log.cases.map Case.store from rfl, hload, hentries]
    rfl
  · intro name ctx hctx
    obtain ⟨e, -, c, hc, hname, hctx⟩ :=
      exists_of_forall₂ hfrom'.flip (mem_of_lookup (Option.mem_def.mp hctx))
    have hname : name = e.1 := hname
    exact ⟨c, hname ▸ hc, hctx⟩

variable {host : Host} {engine : Engine} {models : Models} {bundle : CompiledBundle}

theorem LoadedFrom.scoredAlike {c : Case bundle.inputContract} {ctx : QuoteContext}
    (h : LoadedFrom c ctx) :
    ScoredAlike (makeScorer host engine models bundle) c.context ctx := by
  obtain ⟨inputs, rfl, hread⟩ := h
  exact hread.scoredAlike (generatedContext inputs)

/-- Coerced, a context read back has the values the case has: both are refused for one failure, or
both are coerced, to inputs that agree. -/
def CoercedAlike (contract : List InputContractField) (a b : QuoteContext) : Prop :=
  match coerceInputs contract a, coerceInputs contract b with
  | .ok p, .ok q => ∀ k, q.inputs.get? k = p.inputs.get? k
  | .error e, .error e' => e = e'
  | _, _ => False

theorem LoadedFrom.coercedAlike {c : Case contract} {ctx : QuoteContext} (h : LoadedFrom c ctx) :
    CoercedAlike contract c.context ctx := by
  obtain ⟨inputs, rfl, hread⟩ := h
  rcases hread.coerce with ⟨e, ha, hb⟩ | ⟨a', b', ha, hb, hsame⟩
  · simp only [CoercedAlike, coerceInputs, generatedContext, ha, hb]
    rfl
  · simp only [CoercedAlike, coerceInputs, generatedContext, ha, hb]
    exact fun k => (hsame k).symm

/-- Where no two fields share a name, coercing a generated case leaves it as it was drawn. -/
theorem Case.coerceInputs_context (hn : (contract.map InputContractField.name).Nodup)
    (c : Case contract) : coerceInputs contract c.context = .ok c.context := by
  have hself : ∀ f ∈ contract, coerceField c.context.inputs f = .ok c.context.inputs := by
    refine fun f hf => coerceField_eq_self fun s ht hs => ?_
    have hget : c.context.inputs.get? f.name = (c.inputs.get? f.name).map DrawnValue.value :=
      Dict.get?_mapValues _ _ _
    rw [hget, Option.map_eq_some_iff] at hs
    obtain ⟨v, hv, hs⟩ := hs
    obtain ⟨g, hg, hname, hdraws⟩ := c.drawn _ ((Dict.get?_eq_some _).mp hv)
    obtain rfl : g = f := List.inj_on_of_nodup_map hn hg hf hname
    have hdraws : g.Draws v := hdraws
    cases hdraws with
    | null _ => cases hs
    | bool b _ => cases hs
    | int n _ => cases hs
    | decimal n _ => cases hs
    | enum s h _ => rw [ht] at h; cases h
    | date d h => rw [ht] at h; cases h
    | string s h => rw [ht] at h; cases h
  have hfold : ∀ fields : List InputContractField, (∀ f ∈ fields, f ∈ contract) →
      fields.foldlM coerceField c.context.inputs = .ok c.context.inputs := by
    intro fields
    induction fields with
    | nil => exact fun _ => rfl
    | cons f fields ih =>
      intro hsub
      rw [List.foldlM_cons, hself f (hsub f List.mem_cons_self)]
      exact ih fun g hg => hsub g (List.mem_cons_of_mem _ hg)
  rw [coerceInputs, hfold contract fun _ h => h]
  rfl

theorem replay_all {ρ : Type} {run : RegressionProperty → Except Raised (PropertyResult × ρ)}
    {replay : RegressionProperty → Except Raised PropertyResult} {props : List RegressionProperty}
    {results : List (PropertyResult × ρ)}
    (h : List.Forall₂ (fun prop r => run prop = .ok r) props results)
    (hstep : ∀ prop r, prop ∈ props → run prop = .ok r →
      ∃ r', replay prop = .ok r' ∧ r'.name = r.1.name ∧ r'.status = r.1.status) :
    ∃ results', props.mapM replay = .ok results' ∧
      results'.map (fun r => (r.name, r.status)) = results.map fun r => (r.1.name, r.1.status) := by
  induction h with
  | nil => exact ⟨[], rfl, rfl⟩
  | @cons prop r props results hr _ ih =>
    obtain ⟨r', hr', hname, hstatus⟩ := hstep prop r List.mem_cons_self hr
    obtain ⟨results', hresults, hsame⟩ :=
      ih fun prop' r hprop hr => hstep prop' r (List.mem_cons_of_mem _ hprop) hr
    refine ⟨r' :: results', mapM_eq_ok.mpr (.cons hr' (mapM_eq_ok.mp hresults)), ?_⟩
    rw [List.map_cons, List.map_cons, hname, hstatus, hsame]

def RegressionRun.verdicts (run : RegressionRun) : List (String × Status) :=
  run.propertyResults.map fun r => (r.name, r.status)

variable {randints : String → ℤ → ℤ → List ℤ} {suite : RegressionSuite}

theorem buildRun_overall {hash hash' : String} {generation generation' : RunGeneration}
    {golden : List GoldenQuoteResult} {results results' : List PropertyResult}
    (h : results.map PropertyResult.status = results'.map PropertyResult.status) :
    (buildRun suite hash generation golden results).overall =
      (buildRun suite hash' generation' golden results').overall := by
  have hall : ∀ l : List PropertyResult, (l.all fun r => r.status = .pass) =
      (l.map PropertyResult.status).all fun s => s = .pass := by
    intro l
    rw [List.all_map]
    rfl
  simp only [buildRun, hall, h]

/-- A context read back stands for its case: coerced, it has the values the case was scored with,
and those it was drawn with where no two inputs share a name; and it satisfies the same
properties. -/
structure StandsFor (randints : String → ℤ → ℤ → List ℤ) (seed : ℕ) (score : Scorer)
    (contract : List InputContractField) (outputs : List String) (c : Case contract)
    (ctx : QuoteContext) : Prop where
  coerced : CoercedAlike contract c.context ctx
  drawn : (contract.map InputContractField.name).Nodup → ∃ prepared,
    coerceInputs contract ctx = .ok prepared ∧
      ∀ k, prepared.inputs.get? k = c.context.inputs.get? k
  outcome : ∀ check, caseHolds randints seed score contract outputs check ctx =
    caseHolds randints seed score contract outputs check c.context

theorem LoadedFrom.standsFor {c : Case bundle.inputContract} {ctx : QuoteContext}
    (h : LoadedFrom c ctx) (seed : ℕ) (outputs : List String) :
    StandsFor randints seed (makeScorer host engine models bundle) bundle.inputContract outputs c
      ctx where
  coerced := h.coercedAlike
  drawn hn := by
    have hcoerced := h.coercedAlike
    rw [CoercedAlike, c.coerceInputs_context hn] at hcoerced
    cases hctx : coerceInputs bundle.inputContract ctx with
    | error e => rw [hctx] at hcoerced; exact hcoerced.elim
    | ok prepared => exact ⟨prepared, rfl, by simpa [hctx] using hcoerced⟩
  outcome check := (h.scoredAlike.caseHolds_eq randints seed _ outputs check).symm

/-- A persisted run is replayed, from the log read back from the store, with the name and the status
of every property and the overall verdict that it had; each case and each counterexample read back
stands for the one that was stored. -/
theorem replay_reproduces (generator : Generator bundle.inputContract) {run : RegressionRun}
    {log : CasesLog bundle.inputContract}
    (h : runRegression randints host engine models bundle suite generator = .ok (run, log)) :
    ∃ loaded replayed, log.store.load = some loaded ∧
      List.Forall₂ (StandsFor randints suite.seed (makeScorer host engine models bundle)
        bundle.inputContract bundle.outputNames) log.cases loaded.cases ∧
      (∀ name, ∀ ctx ∈ loaded.counterexamples.lookup name, ∃ c, (name, c) ∈ log.counterexamples ∧
        StandsFor randints suite.seed (makeScorer host engine models bundle) bundle.inputContract
          bundle.outputNames c ctx) ∧
      replayCases randints host engine models bundle suite loaded run = .ok replayed ∧
      replayed.verdicts = run.verdicts ∧ replayed.overall = run.overall := by
  simp only [runRegression, bind_eq_ok] at h
  obtain ⟨-, -, golden, hgolden, results, hresults, h⟩ := h
  obtain ⟨rfl, rfl⟩ := Prod.mk.inj (Except.ok.inj h)
  set log : CasesLog bundle.inputContract :=
    ⟨generator.cases, results.filterMap fun r => r.2.map (r.1.name, ·)⟩ with hlog
  obtain ⟨loaded, hload, hcases, hkept⟩ := log.exists_load
  have halike : List.Forall₂ (ScoredAlike (makeScorer host engine models bundle))
      (generator.cases.map Case.context) loaded.cases := by
    rw [List.forall₂_map_left_iff]
    exact hcases.imp fun _ _ hfrom => hfrom.scoredAlike
  have hpairs := mapM_eq_ok.mp hresults
  -- a counterexample under the name of a property is the one its own run found
  have hown : ∀ prop ∈ suite.properties, ∀ r, runProperty randints suite.seed
      (makeScorer host engine models bundle) bundle.inputContract bundle.outputNames generator prop =
        .ok r → ∀ ctx ∈ loaded.counterexamples.lookup prop.name, ∃ c, r.2 = some c ∧
          ScoredAlike (makeScorer host engine models bundle) c.context ctx := by
    intro prop hprop r hr ctx hctx
    obtain ⟨c, hc, hfrom⟩ := hkept prop.name ctx hctx
    obtain ⟨r', hr', hrc⟩ := List.mem_filterMap.mp hc
    obtain ⟨c', hc', he⟩ := Option.map_eq_some_iff.mp hrc
    obtain ⟨hname, rfl⟩ := Prod.mk.inj he
    obtain ⟨prop', hprop', hrun⟩ := exists_of_forall₂ hpairs.flip hr'
    have hname' : prop'.name = prop.name := by
      obtain ⟨-, -, -, -, hn, -⟩ := runProperty_cases hrun
      rw [← hn, hname]
    obtain rfl : prop' = prop := List.inj_on_of_nodup_map suite.names_nodup hprop' hprop hname'
    obtain rfl : r' = r := Except.ok.inj (hrun.symm.trans hr)
    exact ⟨c', hc', hfrom.scoredAlike⟩
  set run := buildRun suite bundle.contentHash ⟨suite.seed, suite.cases, generator.version⟩ golden
    (results.map Prod.fst) with hrun
  obtain ⟨results', hresults', hsame⟩ := replay_all hpairs fun prop r hprop hr =>
    replayProperty_reproduces run hr halike (hown prop hprop r hr)
  refine ⟨loaded, buildRun suite bundle.contentHash run.generation golden results', hload,
    hcases.imp fun _ _ hfrom => hfrom.standsFor _ _, ?_, ?_, ?_, ?_⟩
  · intro name ctx hctx
    obtain ⟨c, hc, hfrom⟩ := hkept name ctx hctx
    exact ⟨c, hc, hfrom.standsFor _ _⟩
  · have hhash : ¬ suite.contentHash ≠ run.suiteContentHash := fun hne => hne rfl
    rw [replayCases, if_neg hhash]
    exact bind_eq_ok.mpr ⟨golden, hgolden, bind_eq_ok.mpr ⟨results', hresults', rfl⟩⟩
  · rw [RegressionRun.verdicts, RegressionRun.verdicts, hrun]
    simpa [buildRun, Function.comp_def] using hsame
  · refine buildRun_overall ?_
    have hstatus := congrArg (List.map Prod.snd) hsame
    simpa [Function.comp_def] using hstatus

end Run

section Example

def amountField : InputContractField := { name := "amount", type := .decimal, nullable := true }

/-- The price is the amount. -/
def amountAlgorithm : RatingAlgorithm where
  slug := "motor"
  version := 1
  inputContract := [amountField]
  outputs := [{ name := "payable_premium_minor", type := "money_minor" }]
  steps := [{ stepId := "in", consumes := [], produces := ["amount"],
              kind := .input "amount" .error },
            { stepId := "out", consumes := ["amount"], produces := [],
              kind := .output "payable_premium_minor" ⟨.halfEven, 0⟩ }]
  subGraphs := []
  graph_ok := by decide

/-- The loaded algorithm; nothing refuses its load. -/
def amountEvaluation : PurposeEvaluation :=
  (loadEvaluation plainEngine emptyTables amountAlgorithm).toOption.getD ⟨amountAlgorithm, [], []⟩

def amountBundle : CompiledBundle := ⟨"sha256:0", amountEvaluation, fun _ => none⟩

def amountHost : Host := ⟨fun _ _ => some true, fun _ => true⟩

def amountCase (v : DrawnValue) (h : amountField.Draws v) : Case amountBundle.inputContract where
  inputs := ⟨[("amount", v)], by simp⟩
  drawn e he := ⟨amountField, List.mem_singleton_self _, by
    obtain rfl := List.mem_singleton.mp he
    exact ⟨rfl, h⟩⟩

def amountSuite : RegressionSuite where
  contentHash := "sha256:1"
  goldenQuotes := []
  properties := [⟨"positive", .premiumPositive⟩, ⟨"bounded", .premiumBounded (some (-300)) none⟩,
    ⟨"rising", .monotone ⟨"amount", .increasing, false, some 0, some 1⟩⟩]
  cases := 3
  seed := 7
  names_nodup := by decide

/-- A positive amount, a negative one and none. -/
def amountGenerator : Generator amountBundle.inputContract where
  version := "6"
  cases := [amountCase (.cents 1250) (.decimal _ rfl), amountCase (.cents (-300)) (.decimal _ rfl),
    amountCase .null (.null rfl)]
  explored _ := [amountCase (.cents (-300)) (.decimal _ rfl)]
  stopped _ := false

def amountRun : Except Raised (RegressionRun × CasesLog amountBundle.inputContract) :=
  runRegression (fun _ _ _ => []) amountHost plainEngine noModels amountBundle amountSuite
    amountGenerator

/-- A run of which one property fails on a negative amount, replayed from its stored log. -/
theorem replay_reproduces_amounts : ∃ run log loaded replayed, amountRun = .ok (run, log) ∧
    run.verdicts = [("positive", .fail), ("bounded", .pass), ("rising", .pass)] ∧
    log.store.load = some loaded ∧
    replayCases (fun _ _ _ => []) amountHost plainEngine noModels amountBundle amountSuite loaded
      run = .ok replayed ∧ replayed.verdicts = run.verdicts ∧ replayed.overall = run.overall := by
  have hverdicts : amountRun.toOption.map (fun r => r.1.verdicts) =
      some [("positive", .fail), ("bounded", .pass), ("rising", .pass)] := by with_unfolding_all decide
  obtain ⟨⟨run, log⟩, hrun, hverdicts⟩ := Option.map_eq_some_iff.mp hverdicts
  have h : amountRun = .ok (run, log) := by
    cases hr : amountRun with
    | error e => rw [hr] at hrun; cases hrun
    | ok r => rw [hr] at hrun; exact congrArg _ (Option.some.inj hrun)
  obtain ⟨loaded, replayed, hload, -, -, hreplay, hsame, hoverall⟩ :=
    replay_reproduces amountGenerator h
  exact ⟨run, log, loaded, replayed, h, hverdicts, hload, hreplay, hsame, hoverall⟩

end Example

end GiPricing
