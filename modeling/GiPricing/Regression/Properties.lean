import GiPricing.Regression.Log

/-! # Properties

The property classes as checks of a scorer, and the scorer itself. Contexts that a scorer answers
alike, whatever one of their inputs is set to, satisfy the same properties.
-/

namespace GiPricing

open Failure Decimal

/-! ## The scorer -/

/-- What a scorer takes for a refused context: every other failure is raised. -/
def Raised.isRefusal : Raised → Bool
  | coded _ | valueError | typeError => true
  | notImplemented | arithmetic | assertion | keyError | patternError => false

def refusedAsNone {α : Type} : Except Raised α → Except Raised (Option α)
  | .ok a => .ok (some a)
  | .error e => if e.isRefusal then .ok none else .error e

abbrev Scorer := QuoteContext → Except Raised (Option ScoringResult)

section Score

variable (host : Host) (engine : Engine) (models : Models) (bundle : CompiledBundle)

def CompiledBundle.inputContract : List InputContractField := bundle.base.algorithm.inputContract

/-- The scorer of a bundle. The source keeps a result under the JSON of the prepared context, in
which no decimal input is a text, so what it keeps is what scoring the context again gives. -/
def makeScorer : Scorer := fun context => do
  let prepared ← coerceInputs bundle.inputContract context
  refusedAsNone (scoreContextSync host engine models bundle prepared)

end Score

/-! ## The checks -/

inductive Direction | increasing | decreasing
  deriving DecidableEq, Repr

/-- A premium that is monotone in one input; a bound is given by the number it writes. -/
structure MonotoneInInput where
  input : String
  direction : Direction
  strict : Bool
  lower : Option ℚ
  upper : Option ℚ
  deriving DecidableEq

inductive PropertyCheck
  | premiumPositive
  | monotone (check : MonotoneInInput)
  | noNullOutput
  | ladderReconciles
  | premiumBounded (lowerMinor upperMinor : Option ℤ)
  deriving DecidableEq

/-- The payable premium of a quoted result. -/
def payableMinor (scored : ScoringResult) : Option ℤ :=
  if scored.outcome = .quoted then
    (scored.premiumLadder.find? fun r => r.rung = .payablePremium).map LadderRung.valueMinor
  else none

/-! ## The grid of a monotone property -/

def InputContractField.isOrderedEnum (f : InputContractField) : Bool :=
  f.type = .enum && f.ordered

/-- The greater of the lower ends and the lesser of the upper ends that are given. -/
def sweepBounds (f : InputContractField) (check : MonotoneInInput) : Option (ℚ × ℚ) := do
  let low ← [check.lower, f.min.map Bound.toRat].reduceOption.max?
  let high ← [check.upper, f.max.map Bound.toRat].reduceOption.min?
  return (low, high)

def defaultPrec : ℕ := 28

/-- The lowest and the highest point of a sweep, in whole numbers or in cents. -/
def sweptRange (f : InputContractField) (check : MonotoneInInput) : Except Raised (ℤ × ℤ) :=
  match sweepBounds f check with
  | none => .error .assertion
  | some (low, high) =>
    if f.type = .int then
      if ⌊high⌋ < ⌈low⌉ then .error .valueError else .ok (⌈low⌉, ⌊high⌋)
    else
      let lo := ⌈low * 100⌉
      let hi := ⌊high * 100⌋
      if 10 ^ defaultPrec ≤ |lo| ∨ 10 ^ defaultPrec ≤ |hi| then .error .arithmetic
      else if hi < lo then .error .valueError else .ok (lo, hi)

/-- The field a monotone property names, where it can be swept. -/
def monotoneField (contract : List InputContractField) (check : MonotoneInInput) :
    Except Raised InputContractField :=
  match contract.find? fun f => f.name = check.input with
  | none => .error .valueError
  | some f =>
    if f.isOrderedEnum then
      if check.lower.isSome || check.upper.isSome then .error .valueError else .ok f
    else if f.type ≠ .int ∧ f.type ≠ .decimal then .error .valueError
    else if (sweepBounds f check).isNone then .error .valueError
    else (sweptRange f check).map fun _ => f

inductive GridKind | uniformSampled | levels
  deriving DecidableEq, Repr

/-- The kind of grid a run records for a property. -/
def propertyGrid (contract : List InputContractField) :
    PropertyCheck → Except Raised (Option GridKind)
  | .monotone check => do
    let f ← monotoneField contract check
    return some (if f.isOrderedEnum then .levels else .uniformSampled)
  | _ => .ok none

def gridPoints : ℕ := 5

def uniformOffsets (width : ℤ) : List ℤ :=
  (List.range gridPoints).map fun i => width * i / (gridPoints - 1)

/-- `lo + k * cent` in the default context. -/
def centPoint (lo k : ℤ) : ℚ := roundSig defaultPrec (lo + roundSig defaultPrec k) / 100

section Sweep

/- The numbers a random generator gives, from the text that seeds it, between two bounds. -/
variable (randints : String → ℤ → ℤ → List ℤ) (seed : ℕ)

/-- The values a sweep visits: every level in its declared order, or the points of a uniform grid
and sampled ones, sorted. -/
def monotoneGrid (f : InputContractField) (check : MonotoneInInput) : Except Raised (List Value) :=
  if f.isOrderedEnum then .ok ((f.domain.getD []).map .text)
  else do
    let (lo, hi) ← sweptRange f check
    let source := toString seed ++ ":" ++ f.name
    if f.type = .int then
      let points := (uniformOffsets (hi - lo)).map (lo + ·) ++ randints source lo hi
      return (points.dedup.insertionSort (· ≤ ·)).map .int
    else
      let cents := ⌊roundSig defaultPrec ((hi - lo : ℤ) : ℚ)⌋
      let points := (uniformOffsets cents ++ randints source 0 cents).map (centPoint lo)
      return (points.dedup.insertionSort (· ≤ ·)).map fun q => .decimal (.finite q)

/-- Where a sweep breaks its property, and how many quoted points it compared. -/
structure MonotoneSweep where
  brokenAt : Option (Value × Value)
  quotedPoints : ℕ
  deriving DecidableEq

/-- The order a monotone property asks of two premiums. -/
def MonotoneInInput.ordered (check : MonotoneInInput) (a b : ℤ) : Bool :=
  match check.direction, check.strict with
  | .increasing, true => a < b
  | .increasing, false => a ≤ b
  | .decreasing, true => b < a
  | .decreasing, false => b ≤ a

/-- The loop of a sweep, from the last quoted point and the number of them. -/
def sweepFrom (check : MonotoneInInput) (scoreAt : Value → Except Raised (Option ScoringResult))
    (previous : Option (Value × ℤ)) (quoted : ℕ) : List Value → Except Raised MonotoneSweep
  | [] => .ok ⟨none, quoted⟩
  | value :: grid => do
    match ← scoreAt value with
    | none => .ok ⟨some (value, value), quoted⟩
    | some scored => match payableMinor scored with
      -- a declined point is a gap
      | none => sweepFrom check scoreAt previous quoted grid
      | some premium => match previous with
        | none => sweepFrom check scoreAt (some (value, premium)) (quoted + 1) grid
        | some p =>
          if check.ordered p.2 premium then
            sweepFrom check scoreAt (some (value, premium)) (quoted + 1) grid
          else .ok ⟨some (p.1, value), quoted + 1⟩

def QuoteContext.withInput (context : QuoteContext) (name : String) (value : Value) :
    QuoteContext := { context with inputs := context.inputs.insert name value }

variable (score : Scorer)

def monotoneSweep (check : MonotoneInInput) (f : InputContractField) (context : QuoteContext) :
    Except Raised MonotoneSweep := do
  let grid ← monotoneGrid randints seed f check
  sweepFrom check (fun value => score (context.withInput f.name value)) none 0 grid

variable (contract : List InputContractField)

/-- Some context's sweep compared two quoted points. -/
def monotoneHasComparablePair (check : MonotoneInInput) (contexts : List QuoteContext) :
    Except Raised Bool := do
  let f ← monotoneField contract check
  contexts.anyM fun c =>
    (monotoneSweep randints seed score check f c).map fun s => decide (2 ≤ s.quotedPoints)

/-- A check of one scored result. -/
def PropertyCheck.holdsOf (outputs : List String) (scored : ScoringResult) :
    PropertyCheck → Bool
  | .premiumPositive => match payableMinor scored with
    | none => true
    | some premium => 0 < premium
  | .noNullOutput =>
    (scored.outputs.all fun e => scored.output e.1 ≠ some .null) &&
      outputs.all fun name => ((scored.output name).getD .null) ≠ .null
  -- a result is only built with a ladder that reconciles, and its trace says so
  | .ladderReconciles => true
  | .premiumBounded lowerMinor upperMinor => match payableMinor scored with
    | none => true
    | some premium => (lowerMinor.all fun l => l ≤ premium) && upperMinor.all fun u => premium ≤ u
  -- a monotone property is asked of a sweep, never of one result
  | .monotone _ => true

/-- One context satisfies one property. A refused context satisfies none. -/
def caseHolds (outputs : List String) (check : PropertyCheck) (context : QuoteContext) :
    Except Raised Bool :=
  match check with
  | .monotone m => do
    let f ← monotoneField contract m
    let sweep ← monotoneSweep randints seed score m f context
    return sweep.brokenAt.isNone
  | check => do
    match ← score context with
    | none => return false
    | some scored => return check.holdsOf outputs scored

/-- The adjacent grid values where the sweep of a context breaks. -/
def counterexamplePoints (check : PropertyCheck) (context : QuoteContext) :
    Except Raised (Option (Value × Value)) :=
  match check with
  | .monotone m => do
    let f ← monotoneField contract m
    let sweep ← monotoneSweep randints seed score m f context
    return sweep.brokenAt
  | _ => .ok none

end Sweep

/-! ## Contexts scored alike -/

/-- Two contexts a scorer answers alike, whatever one of their inputs is set to. -/
structure ScoredAlike (score : Scorer) (a b : QuoteContext) : Prop where
  same : score a = score b
  swept : ∀ name value, score (a.withInput name value) = score (b.withInput name value)

namespace ScoredAlike

variable {score : Scorer} {a b : QuoteContext} (h : ScoredAlike score a b)
  (randints : String → ℤ → ℤ → List ℤ) (seed : ℕ) (contract : List InputContractField)

include h

theorem monotoneSweep_eq (check : MonotoneInInput) (f : InputContractField) :
    monotoneSweep randints seed score check f a = monotoneSweep randints seed score check f b := by
  unfold monotoneSweep
  rw [funext (h.swept f.name)]

theorem caseHolds_eq (outputs : List String) (check : PropertyCheck) :
    caseHolds randints seed score contract outputs check a =
      caseHolds randints seed score contract outputs check b := by
  cases check <;> simp only [caseHolds, h.monotoneSweep_eq, h.same]

end ScoredAlike

theorem counterexamplePoints_ok {randints : String → ℤ → ℤ → List ℤ} {seed : ℕ} {score : Scorer}
    {contract : List InputContractField} {outputs : List String} {check : PropertyCheck}
    {context : QuoteContext} {b : Bool}
    (h : caseHolds randints seed score contract outputs check context = .ok b) :
    ∃ p, counterexamplePoints randints seed score contract check context = .ok p := by
  cases check with
  | monotone m =>
    simp only [caseHolds, bind_eq_ok] at h
    obtain ⟨f, hf, sweep, hs, -⟩ := h
    exact ⟨sweep.brokenAt, bind_eq_ok.mpr ⟨f, hf, bind_eq_ok.mpr ⟨sweep, hs, rfl⟩⟩⟩
  | premiumPositive => exact ⟨none, rfl⟩
  | noNullOutput => exact ⟨none, rfl⟩
  | ladderReconciles => exact ⟨none, rfl⟩
  | premiumBounded l u => exact ⟨none, rfl⟩

/-! ## Inputs in another order -/

section Order

variable {host : Host} {engine : Engine} {models : Models} {bundle : CompiledBundle}

theorem Dict.perm_of_get? {α : Type} {a b : Dict α} (h : ∀ k, a.get? k = b.get? k) :
    a.entries.Perm b.entries := by
  refine (List.perm_ext_iff_of_nodup (.of_map _ a.nodup) (.of_map _ b.nodup)).mpr ?_
  rintro ⟨k, v⟩
  rw [← Dict.get?_eq_some, ← Dict.get?_eq_some, h k]

theorem crossed_refused {name : String} {v : Value} {e : Raised}
    (h : crossed host name v = .error e) : e.isRefusal = true := by
  unfold crossed at h
  split at h
  · split_ifs at h
    cases h
    rfl
  all_goals first | cases h; rfl | cases h

theorem crossedInputs_refused {algorithm : RatingAlgorithm} {inputs : Dict Value} {e : Raised}
    (h : crossedInputs host algorithm inputs = .error e) : e.isRefusal = true := by
  obtain ⟨-, x, -, -, -, hx⟩ := mapM_eq_error.mp h
  split_ifs at hx with hd
  · cases hc : crossed host x.1 x.2 with
    | error e' =>
      rw [hc] at hx
      cases hx
      exact crossed_refused hc
    | ok v => rw [hc] at hx; cases hx
  · cases hx

theorem crossedInputs_keys {algorithm : RatingAlgorithm} {inputs : Dict Value}
    {l : List (String × Value)} (h : crossedInputs host algorithm inputs = .ok l) :
    l.map Prod.fst = inputs.keys := by
  have hf := mapM_eq_ok.mp h
  rw [Dict.keys]
  clear h
  generalize inputs.entries = entries at hf
  induction hf with
  | nil => rfl
  | cons hx _ ih =>
    obtain ⟨v, -, rfl⟩ := map_eq_ok.mp hx
    rw [List.map_cons, List.map_cons, ih]

theorem crossedInputs_perm (host : Host) (algorithm : RatingAlgorithm) {a b : Dict Value}
    (h : a.entries.Perm b.entries) :
    ((∃ e, crossedInputs host algorithm a = .error e) ∧
        ∃ e, crossedInputs host algorithm b = .error e) ∨
      ∃ l l', crossedInputs host algorithm a = .ok l ∧ crossedInputs host algorithm b = .ok l' ∧
        l.Perm l' := by
  cases ha : crossedInputs host algorithm a with
  | error e =>
    refine Or.inl ⟨⟨e, rfl⟩, ?_⟩
    cases hb : crossedInputs host algorithm b with
    | error e' => exact ⟨e', rfl⟩
    | ok l' =>
      have hall := exists_mapM_ok_iff.mp ⟨l', hb⟩
      obtain ⟨l, hl⟩ := exists_mapM_ok fun x hx => hall x (h.mem_iff.mp hx)
      exact absurd (ha.symm.trans hl) (by simp)
  | ok l =>
    obtain ⟨l', hl', hp⟩ := List.perm_comp_forall₂ h.symm (mapM_eq_ok.mp ha)
    exact Or.inr ⟨l, l', rfl, mapM_eq_ok.mpr hl', hp.symm⟩

theorem stampedContext_perm {ctx : QuoteContext} {l l' : List (String × Value)}
    (hn : (l.map Prod.fst).Nodup) (h : l.Perm l') :
    stampedContext ctx l = stampedContext ctx l' := by
  have hsplit : ∀ (p m : List (String × Value)) k,
      Dataflow.ofEntries (p ++ m) k = (Dataflow.ofEntries m k).or (Dataflow.ofEntries p k) := by
    intro p m k
    rw [Dataflow.ofEntries, Dataflow.ofEntries, Dataflow.ofEntries, List.reverse_append,
      List.lookup_append]
  funext k
  rw [stampedContext, stampedContext, hsplit, hsplit, Dataflow.ofEntries_perm hn h]

variable {ctx : QuoteContext} {a b : Dict Value}

theorem checkQuote_same (h : ∀ k, a.get? k = b.get? k) :
    checkQuote host bundle { ctx with inputs := a } =
      checkQuote host bundle { ctx with inputs := b } := by
  have hvalue : inputValue a = inputValue b := funext fun k => by rw [inputValue, inputValue, h]
  have hkeys : ∀ k, a.keys.contains k = b.keys.contains k := by
    intro k
    rw [Bool.eq_iff_iff, List.contains_iff_mem, List.contains_iff_mem]
    exact ((Dict.perm_of_get? h).map Prod.fst).mem_iff
  simp only [checkQuote, validateInputs, checkBillingSurface, checkNoShadowedProducedNames, hvalue,
    hkeys]

theorem engineContext_same (host : Host) (ctx : QuoteContext) (algorithm : RatingAlgorithm)
    (h : ∀ k, a.get? k = b.get? k) :
    (∃ e e', e.isRefusal = true ∧ e'.isRefusal = true ∧
        engineContext host algorithm { ctx with inputs := a } = .error e ∧
        engineContext host algorithm { ctx with inputs := b } = .error e') ∨
      ∃ c, engineContext host algorithm { ctx with inputs := a } = .ok c ∧
        engineContext host algorithm { ctx with inputs := b } = .ok c := by
  rcases crossedInputs_perm host algorithm (Dict.perm_of_get? h) with
    ⟨⟨e, ha⟩, e', hb⟩ | ⟨l, l', ha, hb, hp⟩
  · exact Or.inl ⟨e, e', crossedInputs_refused ha, crossedInputs_refused hb,
      congrArg (Except.map _) ha, congrArg (Except.map _) hb⟩
  · have hn : (l.map Prod.fst).Nodup := crossedInputs_keys ha ▸ a.nodup
    refine Or.inr ⟨stampedContext ctx l, congrArg (Except.map _) ha, ?_⟩
    rw [stampedContext_perm hn hp]
    exact congrArg (Except.map _) hb

/-- The order of the inputs of a quote does not change its result. -/
theorem scoreContextSync_same (h : ∀ k, a.get? k = b.get? k) :
    refusedAsNone (scoreContextSync host engine models bundle { ctx with inputs := a }) =
      refusedAsNone (scoreContextSync host engine models bundle { ctx with inputs := b }) := by
  have hkeys : ∀ p : String → Bool, a.keys.all p = b.keys.all p := by
    intro p
    rw [Bool.eq_iff_iff, List.all_eq_true, List.all_eq_true]
    simp only [((Dict.perm_of_get? h).map Prod.fst).mem_iff, Dict.keys]
  have hscore : ∀ c, scoreContext engine models bundle { ctx with inputs := a } c =
      scoreContext engine models bundle { ctx with inputs := b } c := by
    intro c
    simp only [scoreContext, hkeys]
  rw [scoreContextSync, scoreContextSync, checkQuote_same h]
  cases checkQuote host bundle { ctx with inputs := b } with
  | error e => rfl
  | ok u =>
    rcases engineContext_same host ctx (bundle.evaluationFor ctx.purpose).algorithm h with
      ⟨e, e', he, he', ha, hb⟩ | ⟨c, ha, hb⟩
    · have hqa : quoteContext host bundle { ctx with inputs := a } = .error e :=
        bind_eq_error.mpr (Or.inl ha)
      have hqb : quoteContext host bundle { ctx with inputs := b } = .error e' :=
        bind_eq_error.mpr (Or.inl hb)
      rw [hqa, hqb]
      simp [bind, Except.bind, refusedAsNone, he, he']
    · have hq : quoteContext host bundle { ctx with inputs := a } =
          quoteContext host bundle { ctx with inputs := b } := by
        simp only [quoteContext]
        rw [ha, hb]
      rw [hq]
      cases quoteContext host bundle { ctx with inputs := b } with
      | error e => rfl
      | ok c => exact congrArg refusedAsNone (hscore c)

/-- A case read back from the store is scored as it was when it was generated, whatever one of its
inputs is set to. -/
theorem ReadAs.scoredAlike (ctx : QuoteContext) {a b : Dict Value}
    (h : ReadAs bundle.inputContract a b) :
    ScoredAlike (makeScorer host engine models bundle) { ctx with inputs := a }
      { ctx with inputs := b } := by
  have hscore : ∀ {a b : Dict Value}, ReadAs bundle.inputContract a b →
      makeScorer host engine models bundle { ctx with inputs := a } =
        makeScorer host engine models bundle { ctx with inputs := b } := by
    intro a b h
    rcases h.coerce with ⟨e, ha, hb⟩ | ⟨a', b', ha, hb, hsame⟩
    · simp only [makeScorer, coerceInputs, ha, hb]
    · simp only [makeScorer, coerceInputs, ha, hb]
      exact scoreContextSync_same hsame
  exact ⟨hscore h, fun name value => hscore (h.insert name value)⟩

end Order

end GiPricing
