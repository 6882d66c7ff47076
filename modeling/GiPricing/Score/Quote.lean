import GiPricing.Runtime.Wire

/-! # Quotes

A quote is checked against the contract of the algorithm that evaluates it, turned into the
engine's context, evaluated, and its result turned into a scored result.
-/

namespace GiPricing

open Decimal

inductive QuotePurpose | newBusiness | renewal | midTermAdjustment | cancellation | whatIf
  deriving DecidableEq, Repr

def QuotePurpose.text : QuotePurpose → String
  | newBusiness => "new_business"
  | renewal => "renewal"
  | midTermAdjustment => "mid_term_adjustment"
  | cancellation => "cancellation"
  | whatIf => "what_if"

def QuotePurpose.gated : QuotePurpose → Bool
  | midTermAdjustment | cancellation => true
  | newBusiness | renewal | whatIf => false

structure QuoteContext where
  quoteId : Option String := none
  purpose : QuotePurpose
  effectiveDate : Date
  inputs : Dict Value
  ratingVersionRef : Option ArtifactRef := none
  deriving DecidableEq

/-- A loaded bundle: the base evaluation and those of the purposes some mount selects. -/
structure CompiledBundle where
  contentHash : String
  base : PurposeEvaluation
  purposes : QuotePurpose → Option PurposeEvaluation

def CompiledBundle.evaluationFor (b : CompiledBundle) (purpose : QuotePurpose) :
    PurposeEvaluation := (b.purposes purpose).getD b.base

/-- What the language gives: a pattern matches a whole text, unless it does not compile, and a
decimal is the shortest text of a finite float. -/
structure Host where
  fullmatch : String → String → Option Bool
  floatExact : ℚ → Bool

/-! ## The input contract -/

def Bound.toRat : Bound → ℚ
  | int n => n
  | decimal negative coefficient exponent =>
    (if negative then -1 else 1) * (coefficient : ℚ) * 10 ^ exponent

/-- `a < b` of decimals: a value that is not a number signals. -/
def numberLt (a b : Number) : Except Raised Bool := match a, b with
  | .nan _, _ | _, .nan _ => .error .arithmetic
  | .finite p, .finite q => .ok (p < q)
  | .infinite true, .infinite true => .ok false
  | .infinite true, _ => .ok true
  | _, .infinite false => .ok (a ≠ .infinite false)
  | _, _ => .ok false

def breach {α : Type} (b : ContractBreach) : Except Raised α :=
  .error (.coded (.inputContract b))

namespace InputContractField

variable (host : Host) (f : InputContractField)

/-- The type check of a value that is not null; a text is matched against the pattern. -/
def checkType (value : Value) : Except Raised Unit := match f.type, value with
  | .bool, .bool _ | .int, .int _ | .decimal, .int _ | .decimal, .float _ | .decimal, .decimal _
  | .date, .text _ => .ok ()
  | .string, .text s => match f.pattern with
    | none => .ok ()
    | some p => match host.fullmatch p s with
      | some true => .ok ()
      | some false => breach (.patternMismatch f.name)
      | none => .error .patternError
  | .enum, v => match f.domain with
    | none => .ok ()
    | some domain => if domain.any fun d => v = .text d then .ok () else
        breach (.outsideDomain f.name)
  | _, _ => breach (.notOfType f.name)

/-- The range check of a numeric value. -/
def checkRange (value : Value) : Except Raised Unit := match f.type, value.asDecimal with
  | .int, some x | .decimal, some x => do
    if ← (f.min.map fun b => numberLt x (.finite b.toRat)).getD (.ok false) then
      breach (.belowMinimum f.name)
    else if ← (f.max.map fun b => numberLt (.finite b.toRat) x).getD (.ok false) then
      breach (.aboveMaximum f.name)
    else .ok ()
  | _, _ => .ok ()

/-- A null or absent input passes when it may be null. -/
def check (value : Value) : Except Raised Unit :=
  if value = .null then if f.nullable then .ok () else breach (.required f.name)
  else do
    f.checkType host value
    f.checkRange value

end InputContractField

def inputValue (inputs : Dict Value) (name : String) : Value := (inputs.get? name).getD .null

def validateInputs (host : Host) (algorithm : RatingAlgorithm) (inputs : Dict Value) :
    Except Raised Unit :=
  algorithm.inputContract.forM fun f => f.check host (inputValue inputs f.name)

/-! ## The other checks of a quote -/

def checkPurposeMount (bundle : CompiledBundle) (purpose : QuotePurpose) : Except Raised Unit :=
  if purpose.gated && (bundle.purposes purpose).isNone then breach .purposeNotMounted else .ok ()

def billingSurfaceKeys : List String :=
  ["payment_schedule", "apr", "credit_agreement_term", "instalment_schedule", "instalment_count"]

def checkBillingSurface (inputs : Dict Value) : Except Raised Unit :=
  let requested := billingSurfaceKeys.filter (inputs.keys.contains ·)
  if requested = [] then .ok () else breach (.billingSurface (sortedSet requested))

def RatingAlgorithmDraft.declaredInputs (draft : RatingAlgorithmDraft) : List String :=
  draft.inputContract.map InputContractField.name

def RatingAlgorithmDraft.producedNames (draft : RatingAlgorithmDraft) : List String :=
  (draft.steps.filter RatingStep.isInterior).flatMap RatingStep.produces

/-- An undeclared input never names a value a step produces. -/
def checkNoShadowedProducedNames (algorithm : RatingAlgorithm) (inputs : Dict Value) :
    Except Raised Unit :=
  let shadowing := algorithm.producedNames.filter fun name =>
    !algorithm.declaredInputs.contains name && inputs.keys.contains name
  if shadowing = [] then .ok () else breach (.shadowing (sortedSet shadowing))

/-! ## The engine's context -/

/-- A decimal or a float of a decimal input crosses as the float it is. -/
def crossed (host : Host) (name : String) : Value → Except Raised Value
  | .decimal (.finite q) =>
    if host.floatExact q then .ok (.float (.finite q)) else breach (.notRepresentable name)
  | .float (.finite q) => .ok (.float (.finite q))
  | .decimal (.nan true) => .error .valueError
  | .decimal _ | .float _ => breach (.notRepresentable name)
  | v => .ok v

def RatingAlgorithmDraft.decimalInputs (draft : RatingAlgorithmDraft) : List String :=
  (draft.inputContract.filter fun f => f.type = .decimal).map InputContractField.name

/-- The inputs of a quote as they cross, each decimal input in place. -/
def crossedInputs (host : Host) (algorithm : RatingAlgorithm) (inputs : Dict Value) :
    Except Raised (List (String × Value)) :=
  inputs.entries.mapM fun e =>
    (if algorithm.decimalInputs.contains e.1 then crossed host e.1 e.2 else .ok e.2).map (e.1, ·)

def stampedContext (ctx : QuoteContext) (inputs : List (String × Value)) : Context :=
  Dataflow.ofEntries ([("effective_date", .text ctx.effectiveDate.isoformat),
    ("purpose", .text ctx.purpose.text)] ++ inputs)

def engineContext (host : Host) (algorithm : RatingAlgorithm) (ctx : QuoteContext) :
    Except Raised Context :=
  (crossedInputs host algorithm ctx.inputs).map (stampedContext ctx)

def RatingStep.asAt? (s : RatingStep) : Option String := match s.kind with
  | .lookup _ _ asAt _ => some asAt
  | _ => none

/-- The value each lookup reads its date from is a strict calendar date. -/
def checkAsAtValues (algorithm : RatingAlgorithm) (c : Context) : Except Raised Unit :=
  algorithm.steps.forM fun s => match s.asAt? with
    | none => .ok ()
    | some name => match c name with
      | some (.text t) =>
        if (Date.ofIso? t).isSome then .ok () else breach (.asAtNotDate s.stepId name)
      | _ => breach (.asAtNotDate s.stepId name)

/-! ## Scoring -/

section Scoring

variable (host : Host) (engine : Engine) (models : Models) (bundle : CompiledBundle)

/-- The checks both entry points make before the context is built. -/
def checkQuote (ctx : QuoteContext) : Except Raised Unit := do
  let algorithm := (bundle.evaluationFor ctx.purpose).algorithm
  validateInputs host algorithm ctx.inputs
  checkPurposeMount bundle ctx.purpose
  checkBillingSurface ctx.inputs
  checkNoShadowedProducedNames algorithm ctx.inputs

/-- The context a checked quote is evaluated on. -/
def quoteContext (ctx : QuoteContext) : Except Raised Context := do
  let algorithm := (bundle.evaluationFor ctx.purpose).algorithm
  let c ← engineContext host algorithm ctx
  checkAsAtValues algorithm c
  return c

/-- Evaluate a context, whose every input the binding converts, and build the scored result. -/
def scoreContext (ctx : QuoteContext) (c : Context) : Except Raised ScoringResult := do
  let ev := bundle.evaluationFor ctx.purpose
  if ctx.inputs.keys.all fun k => engine.binds (c.read k) then
    let result ← ev.evaluate engine models c
    buildScoringResult ev.algorithm.toRatingAlgorithmDraft result
  else .error .typeError

/-- `_score_context_sync`. -/
def scoreContextSync (ctx : QuoteContext) : Except Raised ScoringResult := do
  checkQuote host bundle ctx
  let c ← quoteContext host bundle ctx
  scoreContext engine models bundle ctx c

def checkRatingVersion (ctx : QuoteContext) : Except Raised Unit :=
  if ctx.ratingVersionRef.isNone then breach .noRatingVersion else .ok ()

/-- `score_one`: a quote names the rating version it is scored by. -/
def scoreOne (ctx : QuoteContext) : Except Raised ScoringResult := do
  checkQuote host bundle ctx
  checkRatingVersion ctx
  let c ← quoteContext host bundle ctx
  scoreContext engine models bundle ctx c

end Scoring

end GiPricing
