import GiPricing.Score.Ladder

/-! # Scoring an engine result

The checks of an evaluated result, its declared outputs and the scored result. A quote whose
ladder does not reconcile is refused.
-/

namespace GiPricing

open Decimal LadderRungName

/-! ## The checks of the result -/

def modelCallErrorKey : String := "$model_call_error"
def unparseableCell : String := "__UNPARSEABLE_CELL__"

def checkModelCallSentinel (result : Context) : Except Raised Unit :=
  match result modelCallErrorKey with
  | some detail => .error (.coded (.modelCall detail))
  | none => .ok ()

/-- The first of the refusals the steps give. -/
def refuseFirst (steps : List RatingStep) (refusal : RatingStep → Option Refusal) :
    Except Raised Unit :=
  match steps.findSome? refusal with
  | some r => .error (.coded r)
  | none => .ok ()

/-- A table step that matched a cell the engine cannot read. -/
def RatingStep.unparseable (result : Context) (s : RatingStep) : Option Refusal :=
  match s.kind with
  | .table .. => if s.produces.any fun name => result name = some (.text unparseableCell) then
      some (.cellUnparseable s.stepId) else none
  | _ => none

/-- A step that refuses a miss, and a name of which did not survive evaluation. -/
def RatingStep.missed (result : Context) (s : RatingStep) : Option Refusal :=
  if s.produces.all fun name => (result name).isSome then none
  else match s.kind with
    | .table _ _ .error _ => some (.tableMiss s.stepId)
    | .lookup _ _ _ .error => some (.lookupMiss s.stepId)
    | _ => none

def checkUnparseableCells (algorithm : RatingAlgorithmDraft) (result : Context) :
    Except Raised Unit := refuseFirst algorithm.steps (RatingStep.unparseable result)

def checkLookupMisses (algorithm : RatingAlgorithmDraft) (result : Context) : Except Raised Unit :=
  refuseFirst algorithm.steps (RatingStep.missed result)

def checkResult (algorithm : RatingAlgorithmDraft) (result : Context) : Except Raised Unit := do
  checkModelCallSentinel result
  checkUnparseableCells algorithm result
  checkLookupMisses algorithm result

/-! ## The outputs -/

def decimalFamily : List String := ["decimal", "relativity", "percentage"]
def integralTypes : List String := ["int", "count"]

/-- The name without a `_minor` suffix is that of a rung. -/
def isRungName (name : String) : Bool :=
  rungOrder.any fun r => name = r.text || name = r.outputName

/-- An integer in units of `10 ^ -dp`, positional with exactly `dp` digits after the point. -/
def fixedText (n : ℤ) (dp : ℕ) : String :=
  let digits := Nat.toDigits 10 n.natAbs
  let padded := List.replicate (dp + 1 - digits.length) '0' ++ digits
  let whole := padded.take (padded.length - dp)
  let fraction := padded.drop (padded.length - dp)
  String.ofList ((if n < 0 then ['-'] else []) ++ whole ++
    if dp = 0 then [] else '.' :: fraction)

def roundToText (rounding : RoundSpec) : Number → Except Raised String
  | .finite q =>
    let n := roundInt rounding.mode (q * 10 ^ rounding.dp)
    if |n| < 10 ^ prec then .ok (fixedText n rounding.dp) else .error .arithmetic
  | .nan false => .ok "NaN"
  | .infinite _ | .nan true => .error .arithmetic

/-- The integer an `int` or `count` output is, exactly. -/
def integralValue (declared : AlgorithmOutput) : Number → Except Raised ℤ
  | .finite q =>
    if q.den = 1 then .ok q.num else .error (.coded (.typeMismatch declared.name declared.type))
  | .nan false => .error (.coded (.typeMismatch declared.name declared.type))
  | .infinite _ | .nan true => .error .arithmetic

def roundMinor (rounding : RoundSpec) (n : Number) : Except Raised ℤ :=
  if rounding.dp ≠ 0 then .error .notImplemented
  else (roundable rounding.mode n).map (roundInt rounding.mode)

def AlgorithmOutput.readsExact (o : AlgorithmOutput) : Bool :=
  isRungName o.name || o.type = "money_minor" || decimalFamily.contains o.type ||
    integralTypes.contains o.type

/-- One declared output, absent when no step reports it or its source is absent. -/
def buildOutput (steps : List RatingStep) (result : Context) (o : AlgorithmOutput) :
    Except Raised (Option Value) :=
  match outputStep steps o.name with
  | none => .ok none
  | some (step, rounding) => match step.consumes.head? with
    | none => .ok none
    | some name =>
      match if o.readsExact then exactRead result name else none with
      | some n =>
        if integralTypes.contains o.type then (integralValue o n).map fun k => some (.int k)
        else if decimalFamily.contains o.type then
          (roundToText rounding n).map fun t => some (.text t)
        else (roundMinor rounding n).map fun k => some (.int k)
      | none => match result name with
        | none => .ok none
        | some v =>
          if decimalFamily.contains o.type && v ≠ .null then .error .valueError
          else .ok (some v)

/-- The declared outputs in order, each under its name. -/
def buildOutputs (algorithm : RatingAlgorithmDraft) (result : Context) :
    Except Raised (List (String × Value)) :=
  (algorithm.outputs.mapM fun o =>
    (buildOutput algorithm.steps result o).map fun v => v.map (o.name, ·)).map List.reduceOption

/-! ## The scored result -/

inductive ScoringOutcome | quoted | declined
  deriving DecidableEq, Repr

structure ScoringResult where
  outcome : ScoringOutcome
  premiumLadder : List LadderRung
  outputs : List (String × Value)
  declineReasons : List String
  deriving DecidableEq

/-- The value served under a name: a name declared twice keeps its last value. -/
def ScoringResult.output (r : ScoringResult) (name : String) : Option Value :=
  r.outputs.reverse.lookup name

/-- Turn an evaluated result of the evaluated algorithm into a scored result. -/
def buildScoringResult (algorithm : RatingAlgorithmDraft) (result : Context) :
    Except Raised ScoringResult := do
  checkResult algorithm result
  let (declineReasons, codes) ← applyConstraints algorithm result
  let reads ← ladderReads algorithm result codes
  let inputs ← reads.inputs
  let ladder := buildLadder inputs codes
  let outputs ← buildOutputs algorithm result
  if !reconcileLadder ladder inputs then
    .error (.coded (.ladderReconciliation (ladderViolations ladder inputs)))
  -- the result model refuses a float anywhere in its outputs
  else if !outputs.all fun e => e.2.servable then .error .valueError
  else .ok ⟨if declineReasons = [] then .quoted else .declined, ladder, outputs, declineReasons⟩

end GiPricing
