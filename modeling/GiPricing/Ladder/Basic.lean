import GiPricing.Numeric.Decimal

/-! # The Premium Ladder

A ladder is rebuilt after the fact from priced values: each rung records the operation that
explains its unrounded value from the rung before. The check replays the recorded
operations and compares them with what the engine read.
-/

namespace GiPricing

open Decimal

inductive LadderRungName
  | riskPremium | expenseLoading | commission | profitLoading | officePremium
  | optimisationAdjustment | constraints | instalmentLoading | iptAndFees | payablePremium
  deriving DecidableEq, Repr

namespace LadderRungName

def text : LadderRungName → String
  | riskPremium => "risk_premium"
  | expenseLoading => "expense_loading"
  | commission => "commission"
  | profitLoading => "profit_loading"
  | officePremium => "office_premium"
  | optimisationAdjustment => "optimisation_adjustment"
  | constraints => "constraints"
  | instalmentLoading => "instalment_loading"
  | iptAndFees => "ipt_and_fees"
  | payablePremium => "payable_premium"

def outputName (r : LadderRungName) : String := r.text ++ "_minor"

/-- The rungs that are relativities: an unchanged value on one of them is recorded as `× 1`. -/
def isMultiply (r : LadderRungName) : Bool :=
  [expenseLoading, commission, profitLoading, optimisationAdjustment, instalmentLoading].contains r

end LadderRungName

open LadderRungName

def rungsBefore : List LadderRungName :=
  [riskPremium, expenseLoading, commission, profitLoading, officePremium, optimisationAdjustment]

def rungsAfter : List LadderRungName := [instalmentLoading, iptAndFees, payablePremium]

def rungOrder : List LadderRungName := rungsBefore ++ constraints :: rungsAfter

theorem mem_rungOrder (r : LadderRungName) : r ∈ rungOrder := by cases r <;> decide

structure LadderRounding where
  mode : RoundingMode
  dp : ℕ
  deriving DecidableEq, Repr

inductive BoundSide | min | max
  deriving DecidableEq, Repr

inductive OperationKind | multiply | divide | add | clamp | round | none
  deriving DecidableEq, Repr

/-- The operation a rung applied to the unrounded value of the rung before. -/
structure LadderOperation where
  kind : OperationKind
  factor : Option ℚ := none
  divisor : Option ℚ := none
  amountUnrounded : Option ℚ := none
  bound : Option BoundSide := none
  boundUnrounded : Option ℚ := none
  mode : Option RoundingMode := none
  dp : Option ℕ := none
  applied : List String := []
  deriving DecidableEq

structure LadderRung where
  rung : LadderRungName
  valueMinor : ℤ
  unrounded : Option ℚ
  rounding : Option LadderRounding
  operation : Option LadderOperation
  deriving DecidableEq

/-! ## Recovering an operation -/

def prec : ℕ := 100

def tolerance : ℚ := 1 / 10 ^ 26

def maxOperandDigits : ℕ := 20

/-- A value rounded once to whole minor units, the only `dp` a ladder is built with. -/
def roundOnce (value : ℚ) (rounding : LadderRounding) : ℤ := roundInt rounding.mode value

def stripPrime (prime : ℕ) : ℕ → ℕ → ℕ
  | 0, n => n
  | k + 1, n => if n % prime = 0 then stripPrime prime k (n / prime) else n

/-- The quotient if it terminates and fits the context. -/
def terminatingQuotient (numerator denominator : ℚ) : Option ℚ :=
  if denominator = 0 then none
  else
    let ratio := numerator / denominator
    let remaining := stripPrime 5 ratio.den (stripPrime 2 ratio.den ratio.den)
    if remaining ≠ 1 then none
    else if roundSig prec ratio = ratio then some ratio else none

/-- The rounding of `full` to the fewest significant digits that reproduces. -/
def shortestOperand (full : ℚ) (reproduces : ℚ → Bool) : Option ℚ :=
  ((List.range' 1 (maxOperandDigits - 1)).map (roundSig · full)).find? reproduces

def withinTolerance (replayed rungValue : ℚ) : Bool :=
  if rungValue = 0 then replayed = 0
  else roundSig prec |roundSig prec (replayed - rungValue)| ≤
    roundSig prec (tolerance * roundSig prec |rungValue|)

def additionOf (previous current : ℚ) : LadderOperation :=
  { kind := .add, amountUnrounded := some (roundSig prec (current - previous)) }

/-- The shortest factor, else the shortest divisor, else the exact difference. -/
def shortestOperation (previous current : ℚ) : LadderOperation :=
  match shortestOperand (roundSig prec (current / previous)) fun f =>
      withinTolerance (roundSig prec (previous * f)) current with
  | some f => { kind := .multiply, factor := some f }
  | none => match shortestOperand (roundSig prec (previous / current)) fun d =>
      d ≠ 0 && withinTolerance (roundSig prec (previous / d)) current with
    | some d => { kind := .divide, divisor := some d }
    | none => additionOf previous current

/-- The operation that took `previous` to `current`: the exact factor, the exact divisor, a short
operand the engine rounded the result of, or the exact difference. -/
def recoverOperation (previous current : ℚ) (forceAdd : Bool) : LadderOperation :=
  if forceAdd || previous = 0 then additionOf previous current
  else if current = previous then { kind := .multiply, factor := some 1 }
  else match terminatingQuotient current previous with
  | some f => { kind := .multiply, factor := some f }
  | none =>
    if current = 0 then additionOf previous current
    else match terminatingQuotient previous current with
    | some d => { kind := .divide, divisor := some d }
    | none => shortestOperation previous current

/-! ## The clamps and the inputs of the check -/

/-- What one clamp step read from the engine. -/
structure ClampReading where
  stepId : String
  reasonCode : String
  source : String
  before : ℚ
  minimum : Option ℚ
  maximum : Option ℚ
  inDisposition : Bool
  deriving DecidableEq

/-- The side that moves the value, the maximum when both do. -/
def bindingSide (c : ClampReading) : Option (BoundSide × ℚ) :=
  let low := c.minimum.filter (c.before < ·)
  let value := low.getD c.before
  ((c.maximum.filter (· < value)).map (BoundSide.max, ·)).or (low.map (BoundSide.min, ·))

/-- The inputs of the check, read from the evaluated result and never from the ladder. -/
structure LadderInputs where
  exact : LadderRungName → Option ℚ
  rounding : LadderRungName → Option LadderRounding
  constraintsExact : Option ℚ
  clampSource : Option String
  clamps : List ClampReading

def LadderInputs.binding (inputs : LadderInputs) : List (BoundSide × ℚ) :=
  inputs.clamps.filterMap bindingSide

def LadderInputs.placedBinding (inputs : LadderInputs) : List (BoundSide × ℚ) :=
  (inputs.clamps.filter fun c => some c.source = inputs.clampSource).filterMap bindingSide

/-! ## The builder -/

/-- The rung of `constraints`, synthesised from the rung before. -/
def constraintsRung (inputs : LadderInputs) (codes : List String) (previous : ℚ)
    (rounding : LadderRounding) : ℚ × LadderRung :=
  match inputs.placedBinding.getLast? with
  | some (side, bound) =>
    let current := inputs.constraintsExact.getD 0
    (current, ⟨constraints, roundOnce current rounding, some current, some rounding,
      some { kind := .clamp, bound := some side, boundUnrounded := some bound, applied := codes }⟩)
  | none => (previous, ⟨constraints, roundOnce previous rounding, some previous, some rounding,
      some { kind := .none, applied := codes }⟩)

/-- The operation recorded on any other rung. -/
def rungOperation (r : LadderRungName) (rounding : LadderRounding) (current : ℚ) :
    Option ℚ → Option LadderOperation
  | none => none
  | some previous => some <|
    if r = payablePremium then { kind := .round, mode := some rounding.mode, dp := some rounding.dp }
    else if r = iptAndFees then recoverOperation previous current true
    else if current = previous && !r.isMultiply then { kind := .none }
    else recoverOperation previous current false

def buildFrom (inputs : LadderInputs) (codes : List String) :
    Option (ℚ × LadderRounding) → List LadderRungName → List LadderRung
  | _, [] => []
  | prev, r :: rest =>
    if r = constraints then match prev with
      | none => buildFrom inputs codes none rest
      | some (previous, rounding) =>
        let (current, rung) := constraintsRung inputs codes previous rounding
        rung :: buildFrom inputs codes (some (current, rounding)) rest
    else match inputs.exact r, inputs.rounding r with
      | some current, some rounding =>
        ⟨r, roundOnce current rounding, some current, some rounding,
          rungOperation r rounding current (prev.map Prod.fst)⟩
          :: buildFrom inputs codes (some (current, rounding)) rest
      | _, _ => buildFrom inputs codes prev rest

def buildLadder (inputs : LadderInputs) (codes : List String) : List LadderRung :=
  buildFrom inputs codes none rungOrder

/-! ## The check -/

/-- The ways a ladder fails to reconcile, with what their messages name. -/
inductive LadderViolation
  | lastNotPayable (rung : LadderRungName)
  | firstHasOperation (rung : LadderRungName)
  | noOperation (rung : LadderRungName)
  | roundNotLast (rung : LadderRungName)
  | clampElsewhere (rung : LadderRungName)
  | clampNotPlaced (stepId source : String) (clampSource : Option String)
  | disposition (stepId reasonCode : String) (binds lists : Bool)
  | lacksSource (rung : LadderRungName)
  | constraintsRounding
  | roundingNotDeclared (rung : LadderRungName)
  | notEngineValue (rung : LadderRungName) (unrounded : ℚ) (expected : Option ℚ)
  | display (rung : LadderRungName) (shown rounded : ℤ)
  | clampLacksBound (rung : LadderRungName)
  | clampNotBound (unrounded bound : ℚ)
  | noClampBinds
  | clampNotEngineBound (side : BoundSide) (bound : ℚ) (engineSide : BoundSide) (engineBound : ℚ)
  | nearSide (prior : ℚ) (side : BoundSide) (bound : ℚ)
  | changedWithout (rung : LadderRungName) (kind : OperationKind) (difference : ℚ)
  | notReproduced (rung : LadderRungName) (kind : OperationKind) (difference : Option ℚ)
  | notReplayed
  | replayRounds (replayed shown : ℤ) (priced : Option ℤ)
  deriving DecidableEq

/-- Apply one recorded operation without rounding to minor units. -/
def replayStep (running : ℚ) (operation : LadderOperation) : Option ℚ :=
  match operation.kind with
  | .multiply => operation.factor.map fun f => roundSig prec (running * f)
  | .divide => (operation.divisor.filter (· ≠ 0)).map fun d => roundSig prec (running / d)
  | .add => operation.amountUnrounded.map fun a => roundSig prec (running + a)
  | .clamp => operation.boundUnrounded
  | .none | .round => some running

/-- R0 of the rungs: `index` counts from the first of `count`. -/
def shapeViolations (count : ℕ) : ℕ → List LadderRung → List LadderViolation
  | _, [] => []
  | index, r :: rest =>
    (if 0 < index && r.operation.isNone then [.noOperation r.rung] else []) ++
    (if r.operation.any (·.kind = .round) && index ≠ count - 1 then [.roundNotLast r.rung] else []) ++
    (if r.operation.any (·.kind = .clamp) && r.rung ≠ constraints then [.clampElsewhere r.rung]
      else []) ++ shapeViolations count (index + 1) rest

/-- R0 of one clamp: it binds where the ladder can place it, and the disposition agrees. -/
def clampShapeViolations (clampSource : Option String) (c : ClampReading) : List LadderViolation :=
  (if (bindingSide c).isSome && some c.source ≠ clampSource then
    [.clampNotPlaced c.stepId c.source clampSource] else []) ++
  (if (bindingSide c).isSome ≠ c.inDisposition then
    [.disposition c.stepId c.reasonCode (bindingSide c).isSome c.inDisposition] else [])

/-- R1 and R2 of one rung after `previous`. -/
def rungViolations (inputs : LadderInputs) (previous : Option LadderRung) (r : LadderRung) :
    List LadderViolation :=
  match r.unrounded, r.rounding with
  | some unrounded, some rounding =>
    let expected := if r.rung = constraints then
        if inputs.binding ≠ [] then inputs.constraintsExact
        else previous.bind LadderRung.unrounded
      else inputs.exact r.rung
    (if r.rung = constraints then
        if previous.any fun p => r.rounding ≠ p.rounding then [.constraintsRounding] else []
      else if inputs.rounding r.rung ≠ r.rounding then [.roundingNotDeclared r.rung] else []) ++
    (if expected ≠ some unrounded then [.notEngineValue r.rung unrounded expected] else []) ++
    (if roundOnce unrounded rounding ≠ r.valueMinor then
      [.display r.rung r.valueMinor (roundOnce unrounded rounding)] else [])
  | _, _ => [.lacksSource r.rung]

def sourceViolations (inputs : LadderInputs) :
    Option LadderRung → List LadderRung → List LadderViolation
  | _, [] => []
  | previous, r :: rest =>
    rungViolations inputs previous r ++ sourceViolations inputs (some r) rest

def BoundSide.farSide (prior bound : ℚ) : BoundSide → Bool
  | min => prior < bound
  | max => bound < prior

def clampViolations (prior current : ℚ) (rung : LadderRungName) (operation : LadderOperation)
    (binding : List (BoundSide × ℚ)) : List LadderViolation :=
  match operation.bound, operation.boundUnrounded with
  | some side, some bound =>
    (if current ≠ bound then [.clampNotBound current bound] else []) ++
    (match binding.getLast? with
      | none => [.noClampBinds]
      | some (engineSide, engineBound) =>
        if engineSide ≠ side ∨ engineBound ≠ bound then
          [.clampNotEngineBound side bound engineSide engineBound] else []) ++
    (if side.farSide prior bound then [] else [.nearSide prior side bound])
  | _, _ => [.clampLacksBound rung]

/-- R3 of two rungs in a row: the operation explains the second. -/
def stepViolations (inputs : LadderInputs) (before r : LadderRung) : List LadderViolation :=
  match r.operation, before.unrounded, r.unrounded with
  | some operation, some prior, some current => match operation.kind with
    | .clamp => clampViolations prior current r.rung operation inputs.binding
    | .none | .round =>
      if current ≠ prior then
        [.changedWithout r.rung operation.kind (roundSig prec (current - prior))] else []
    | _ => match replayStep prior operation with
      | none => [.notReproduced r.rung operation.kind none]
      | some replayed => if withinTolerance replayed current then []
        else [.notReproduced r.rung operation.kind (some (roundSig prec (replayed - current)))]
  | _, _, _ => []

def replay (first : ℚ) (rungs : List LadderRung) : Option ℚ :=
  rungs.foldl (fun running r => running.bind fun v => r.operation.bind (replayStep v)) (some first)

/-- R4: the replay rounds to the payable shown and to the payable priced. -/
def replayViolations (inputs : LadderInputs) (first last : LadderRung) (rest : List LadderRung) :
    List LadderViolation :=
  match first.unrounded, last.rounding with
  | some start, some rounding => match replay start rest with
    | none => [.notReplayed]
    | some running =>
      if last.rung = payablePremium then
        let replayed := roundOnce running rounding
        let priced := (inputs.exact payablePremium).map fun e =>
          roundOnce e ((inputs.rounding payablePremium).getD rounding)
        if replayed ≠ last.valueMinor ∨ some replayed ≠ priced then
          [.replayRounds replayed last.valueMinor priced] else []
      else []
  | _, _ => []

/-- Every way a ladder fails the check. An empty ladder has nothing to reconcile. -/
def ladderViolations (ladder : List LadderRung) (inputs : LadderInputs) : List LadderViolation :=
  match ladder with
  | [] => []
  | first :: rest =>
    let last := (first :: rest).getLast (List.cons_ne_nil _ _)
    List.flatten [
      if last.rung ≠ payablePremium then [.lastNotPayable last.rung] else [],
      if first.operation.isSome then [.firstHasOperation first.rung] else [],
      shapeViolations (first :: rest).length 0 (first :: rest),
      inputs.clamps.flatMap (clampShapeViolations inputs.clampSource),
      sourceViolations inputs none (first :: rest),
      ((first :: rest).zip rest).flatMap fun e => stepViolations inputs e.1 e.2,
      replayViolations inputs first last rest]

def reconcileLadder (ladder : List LadderRung) (inputs : LadderInputs) : Bool :=
  (ladderViolations ladder inputs).isEmpty

end GiPricing
