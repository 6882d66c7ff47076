import GiPricing.Score.Value

/-! # The ladder of an engine result

The disposition of the constraint steps, what each clamp read and the value of each rung are
read from the evaluated result. The compile-time check refuses a clamp the ladder cannot place.
-/

namespace GiPricing

open Decimal LadderRungName

/-- The last output step that declares a name, with its rounding. -/
def outputStep (steps : List RatingStep) (name : String) : Option (RatingStep × RoundSpec) :=
  (steps.filterMap fun s => match s.kind with
    | .output n rounding => if n = name then some (s, rounding) else none
    | _ => none).getLast?

theorem mem_of_outputStep {steps : List RatingStep} {name : String} {s : RatingStep}
    {rounding : RoundSpec} (h : outputStep steps name = some (s, rounding)) :
    s ∈ steps ∧ s.kind = .output name rounding := by
  obtain ⟨s', hs, he⟩ := List.mem_filterMap.mp (List.mem_of_getLast? h)
  split at he
  · rename_i n d hk
    split at he
    · rename_i hn
      obtain ⟨rfl, rfl⟩ := Prod.mk.inj (Option.some.inj he)
      exact ⟨hs, hn ▸ hk⟩
    · cases he
  · cases he

def rungSource (steps : List RatingStep) (r : LadderRungName) : Option String :=
  if r = constraints then none
  else (outputStep steps r.outputName).bind fun e => e.1.consumes.head?

/-! ## The placement of clamps -/

/-- The last rung before `constraints` that declares a source. -/
def placeable (steps : List RatingStep) : Option LadderRungName :=
  (rungsBefore.filter fun r => (rungSource steps r).isSome).getLast?

/-- A clamp on the source of a rung, refused with the rung and whether it has another position. -/
structure Unplaceable where
  stepId : String
  rung : LadderRungName
  elsewhere : Bool
  deriving DecidableEq, Repr

def RatingStep.unplaceable (steps : List RatingStep) (s : RatingStep) : List Unplaceable :=
  match s.isClamp, s.produces.filter (· ≠ "") with
  | true, produced :: _ =>
    (rungOrder.filter fun r => rungSource steps r = some produced).filterMap fun r =>
      if some r ≠ placeable steps then some ⟨s.stepId, r, true⟩
      else if (s.consumes.filter (· ≠ "")).head? ≠ some produced then some ⟨s.stepId, r, false⟩
      else none
  | _, _ => []

def checkClampPlacement (algorithm : RatingAlgorithmDraft) : List Unplaceable :=
  algorithm.steps.flatMap (RatingStep.unplaceable algorithm.steps)

/-! ## The disposition -/

def RatingStep.violation? (s : RatingStep) : Option (OnViolation × String) := match s.kind with
  | .constraint _ onViolation _ reasonCode => some (onViolation, reasonCode)
  | _ => none

def fired (result : Context) (s : RatingStep) : Bool :=
  ((result (violatedKey s.stepId)).map Value.truthy).getD false

/-- The constraint steps that fired, as the reason codes of the declines and of the clamps. -/
def applyConstraints (algorithm : RatingAlgorithmDraft) (result : Context) :
    Except Raised (List String × List String) :=
  let firing := (algorithm.steps.filter (fired result)).filterMap RatingStep.violation?
  let codes := fun v => (firing.filter fun e => e.1 = v).map Prod.snd
  if codes .error = [] then .ok (codes .decline, codes .clamp) else .error .notImplemented

/-! ## The readings -/

/-- The engine's exact value of a name; a text that is no number reads as absent. -/
def exactRead (result : Context) (name : String) : Option Number :=
  (result.read (exactKey name)).asDecimal

/-- The clamp steps that produce a name, with the name and the reason code. -/
def clampSteps (steps : List RatingStep) : List (RatingStep × String × String) :=
  steps.filterMap fun s => match s.kind, s.produces with
    | .constraint _ .clamp _ reasonCode, produced :: _ => some (s, produced, reasonCode)
    | _, _ => none

def orderedDecimal (v : Value) : Except Raised ℚ := match v.asDecimal with
  | some (.finite q) => .ok q
  | _ => .error .arithmetic

def optionalDecimal : Value → Except Raised (Option ℚ)
  | .null => .ok none
  | v => (orderedDecimal v).map some

/-- The value before a clamp, and each bound present. -/
def clampNumbers (result : Context) (s : RatingStep) :
    Except Raised (ℚ × Option ℚ × Option ℚ) := do
  let before ← orderedDecimal (result.read (beforeKey s.stepId))
  let minimum ← optionalDecimal (result.read (minKey s.stepId))
  let maximum ← optionalDecimal (result.read (maxKey s.stepId))
  return (before, minimum, maximum)

def clampReading (result : Context) (codes : List String) (s : RatingStep)
    (source reasonCode : String) : Except Raised (Option ClampReading) :=
  if result.read (beforeKey s.stepId) = .null then .ok none
  else (clampNumbers result s).map fun (before, minimum, maximum) =>
    some ⟨s.stepId, reasonCode, source, before, minimum, maximum, codes.contains reasonCode⟩

/-- What every clamp step read, in step order. -/
def clampReadings (algorithm : RatingAlgorithmDraft) (result : Context) (codes : List String) :
    Except Raised (List ClampReading) :=
  ((clampSteps algorithm.steps).mapM fun e => clampReading result codes e.1 e.2.1 e.2.2).map
    List.reduceOption

/-- The output step of a rung declares other than whole units, or reports nothing. -/
def rungRefused (steps : List RatingStep) (r : LadderRungName) : Bool :=
  r ≠ constraints && (outputStep steps r.outputName).any fun e =>
    e.2.dp ≠ 0 || e.1.consumes.isEmpty

def rungRounding (steps : List RatingStep) (r : LadderRungName) : Option LadderRounding :=
  (outputStep steps r.outputName).map fun e => ⟨e.2.mode, 0⟩

/-- The inputs of the ladder as they are read, before anything is computed from them. -/
structure LadderReads where
  exact : LadderRungName → Option Number
  rounding : LadderRungName → Option LadderRounding
  constraintsExact : Option Number
  clampSource : Option String
  clamps : List ClampReading

def rungExact (steps : List RatingStep) (result : Context) (r : LadderRungName) : Option Number :=
  (rungSource steps r).bind (exactRead result)

/-- The last rung before `constraints` that has a value. -/
def lastBefore (steps : List RatingStep) (result : Context) : Option LadderRungName :=
  (rungsBefore.filter fun r => (rungExact steps result r).isSome).getLast?

def bindingFirst (readings : List ClampReading) (clampSource : Option String) :
    Option ClampReading :=
  readings.find? fun c => (bindingSide c).isSome && some c.source = clampSource

/-- The reads of a result whose clamps are read. The clamped rung carries the value before the
first binding clamp. -/
def readsOf (steps : List RatingStep) (result : Context) (readings : List ClampReading) :
    LadderReads :=
  let last := lastBefore steps result
  let clampSource := last.bind (rungSource steps)
  let clamped := bindingFirst readings clampSource
  { exact := fun r =>
      ((clamped.filter fun _ => some r = last).map fun c => Number.finite c.before).or
        (rungExact steps result r)
    rounding := fun r => if (rungExact steps result r).isSome then rungRounding steps r else none
    constraintsExact := if readings = [] then none else clampSource.bind (exactRead result)
    clampSource := clampSource
    clamps := readings }

def ladderReads (algorithm : RatingAlgorithmDraft) (result : Context) (codes : List String) :
    Except Raised LadderReads :=
  if rungOrder.any (rungRefused algorithm.steps) then .error .notImplemented
  else (clampReadings algorithm result codes).map (readsOf algorithm.steps result)

/-- A value is rounded to whole units within the context, or the rounding signals. -/
def roundable (mode : RoundingMode) : Number → Except Raised ℚ
  | .finite q => if |roundInt mode q| < 10 ^ prec then .ok q else .error .arithmetic
  | .nan false => .error .valueError
  | .infinite _ | .nan true => .error .arithmetic

namespace LadderReads

variable (reads : LadderReads)

/-- The inputs of the check, of reads whose values the ladder can round. -/
def finite : LadderInputs where
  exact r := (reads.exact r).bind Number.toRat?
  rounding := reads.rounding
  constraintsExact := reads.constraintsExact.bind Number.toRat?
  clampSource := reads.clampSource
  clamps := reads.clamps

/-- Round one rung, after one of the given rounding. -/
def round (prev : Option LadderRounding) (r : LadderRungName) :
    Except Raised (Option LadderRounding) :=
  if r = constraints then match prev with
    | none => .ok none
    | some rounding =>
      if reads.finite.placedBinding = [] then .ok prev
      else match reads.constraintsExact with
        | none => .error .assertion
        | some n => (roundable rounding.mode n).map fun _ => prev
  else match reads.exact r, reads.rounding r with
    | some n, some rounding => (roundable rounding.mode n).map fun _ => some rounding
    | _, _ => .ok prev

/-- Building the ladder raises for the first rung whose value cannot be rounded, and for a placed
clamp whose name has no exact value. -/
def inputs : Except Raised LadderInputs := (rungOrder.foldlM reads.round none).map fun _ => reads.finite

end LadderReads

/-- The inputs of the check and the ladder that scoring an engine result builds. -/
def scoredLadder (algorithm : RatingAlgorithmDraft) (result : Context) :
    Except Raised (LadderInputs × List LadderRung) := do
  let (_, codes) ← applyConstraints algorithm result
  let reads ← ladderReads algorithm result codes
  let inputs ← reads.inputs
  return (inputs, buildLadder inputs codes)

end GiPricing
