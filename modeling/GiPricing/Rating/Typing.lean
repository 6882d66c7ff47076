import GiPricing.Rating.Precise

/-! # The compile-time types and columns

The types of the names and the producers behind a model's columns are read off the stored list of
steps, a later entry overriding an earlier one.
-/

namespace GiPricing

/-! ## Types -/

def RatingInputType.value : RatingInputType → String
  | .int => "int"
  | .decimal => "decimal"
  | .string => "string"
  | .date => "date"
  | .bool => "bool"
  | .enum => "enum"

/-- The statically known type of what a step produces. -/
def RatingStep.declaredType? (typedNames : String → Option String) (s : RatingStep) :
    Option String :=
  match s.kind with
  | .input inputName _ => typedNames inputName
  | .expression _ resultType => some resultType
  | .modelCall _ _ _ resultType => resultType
  | _ => none

/-- The last entry of the list that produces the name with a known type gives its type. -/
def producerTypes (typedNames : String → Option String) (steps : List RatingStep) (name : String) :
    Option String :=
  (steps.reverse.find? fun s =>
    decide (name ∈ s.produces) && (s.declaredType? typedNames).isSome).bind
      (RatingStep.declaredType? typedNames)

def widening : List (String × String) :=
  [("int", "decimal"), ("count", "decimal"), ("relativity", "decimal"), ("percentage", "decimal"),
    ("count", "int")]

/-- Whether a value of one type may be declared as the other. -/
def compatible (producer declared : String) (atOutputStep : Bool) : Bool :=
  if producer = declared then true
  else if producer = "money_minor" then false
  else if declared = "money_minor" then producer = "decimal" && atOutputStep
  else widening.contains (producer, declared)

structure TypeMismatch where
  stepId : String
  outputName : String
  declaredType : String
  producerType : String
  deriving DecidableEq

namespace RatingAlgorithmDraft

variable (draft : RatingAlgorithmDraft)

def typedNames (name : String) : Option String :=
  (draft.inputContract.reverse.find? fun f => f.name = name).map fun f => f.type.value

def declaredOutput (name : String) : Option AlgorithmOutput :=
  draft.outputs.reverse.find? fun o => o.name = name

/-- The mismatch of one output step, given the types of the names. -/
def outputTypeIssue (types : String → Option String) (s : RatingStep) : Option TypeMismatch :=
  match s.kind with
  | .output outputName _ => do
    let declared ← draft.declaredOutput outputName
    let fedBy ← s.consumes.head?
    let producerType ← types fedBy
    if compatible producerType declared.type true then none
    else some { stepId := s.stepId, outputName := outputName, declaredType := declared.type
                producerType := producerType }
  | _ => none

def checkResultTypes : List TypeMismatch :=
  draft.steps.filterMap (draft.outputTypeIssue (producerTypes draft.typedNames draft.steps))

end RatingAlgorithmDraft

/-! ## Columns -/

/-- What the column check reads of a pinned model: the source columns of its factors and the slugs
it takes, over those of the model it is offset by. -/
inductive PinnedColumns
  | model (factors : List (String × List String)) (takes : List String)
  | modelOver (factors : List (String × List String)) (takes : List String) (offset : PinnedColumns)

namespace PinnedColumns

def factors : PinnedColumns → List (String × List String)
  | .model fs _ => fs
  | .modelOver fs _ offset => fs ++ offset.factors

def slugs : PinnedColumns → List String
  | .model _ takes => takes
  | .modelOver _ takes offset => takes ++ offset.slugs

/-- The column a slug is scored on: that of the last factor of one column, or the slug itself. -/
def column (pin : PinnedColumns) (slug : String) : String :=
  match pin.factors.reverse.find? fun f => f.1 = slug ∧ f.2.length = 1 with
  | some (_, source :: _) => source
  | _ => slug

end PinnedColumns

/-- The models that each target pins: one, or the components of a peril structure. -/
abbrev ColumnPins := ModelTarget → List PinnedColumns

def ModelTarget.restricts : ModelTarget → Bool
  | .model _ => false
  | .perilStructure _ => true

/-- The entries of the feature map that a model reads, by the column it reads them on. -/
def reached (restrict : Bool) (pin : PinnedColumns) (featureMap : Dict String) :
    List (String × String) :=
  (featureMap.entries.filter fun e => !restrict || decide (e.2 ∈ pin.slugs)).map fun e =>
    (pin.column e.2, e.1)

def namesOn (column : String) (entries : List (String × String)) : List String :=
  (entries.filter fun e => e.1 = column).map Prod.snd

/-- The names that are fed to one column together. -/
def sharedColumns (pins : ColumnPins) (s : RatingStep) : List (List String) :=
  match s.kind with
  | .modelCall target _ featureMap _ => (pins target).flatMap fun pin =>
    let entries := reached target.restricts pin featureMap
    (((entries.map Prod.fst).dedup.insertionSort (· ≤ ·)).map fun column =>
      namesOn column entries).filter fun names => 1 < names.length
  | _ => []

/-- The input a step reads, and what it does where the input is missing. -/
def RatingStep.inputKey? (s : RatingStep) : Option (String × OnMissing) :=
  match s.kind with
  | .input inputName onMissing => some (inputName, onMissing)
  | _ => none

def lastProducer (steps : List RatingStep) (name : String) : Option RatingStep :=
  steps.reverse.find? fun s => name ∈ s.produces

def sameInput (steps : List RatingStep) (names : List String) : Bool :=
  let keys := names.map fun name => (lastProducer steps name).bind RatingStep.inputKey?
  keys.all Option.isSome && keys.dedup.length = 1

structure ColumnClash where
  stepId : String
  names : List String
  deriving DecidableEq

/-- The first column of a model that is fed from different values. -/
def checkModelCallColumns (pins : ColumnPins) (steps : List RatingStep) : Except ColumnClash Unit :=
  match steps.flatMap fun s => ((sharedColumns pins s).filter fun names =>
      !sameInput steps names).map fun names => ColumnClash.mk s.stepId names with
  | [] => .ok ()
  | clash :: _ => .error clash

/-! ## The last entry of a list -/

variable {steps : List RatingStep} {s : RatingStep} {name : String} {P : RatingStep → Bool}

end GiPricing
