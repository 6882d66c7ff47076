import GiPricing.Merge.Keyed
import GiPricing.Rating.Inline
import GiPricing.Score.Quote

/-! # Derived changes

The differences between the algorithms and the pins of two Rating Versions, as numbered changes,
and the algorithm and the pins of a subset of them.
-/

namespace GiPricing.Attribution

open Merge

/-! ## Dumps -/

/-- A dumped value, as it is compared: a mapping without the order of its keys. -/
inductive FieldValue
  | null
  | text (s : String)
  | names (l : List String)
  | ref (r : ArtifactRef)
  | mapping (entries : Finset (String × String))
  | rounding (r : RoundSpec)
  deriving DecidableEq

def FieldValue.ofOption : Option String → FieldValue
  | some s => .text s
  | none => .null

def mappingOf (d : Dict String) : FieldValue := .mapping d.entries.toFinset

def stepType : StepKind → String
  | .input .. => "input"
  | .lookup .. => "lookup"
  | .table .. => "table"
  | .expression .. => "expression"
  | .modelCall .. => "model_call"
  | .constraint .. => "constraint"
  | .output .. => "output"

def onMissingValue : OnMissing → String
  | .error => "error"
  | .default => "default"
  | .null => "null"

def onMissValue : OnMiss → String
  | .error => "error"
  | .default => "default"

def interpolationValue : Interpolation → String
  | .none => "none"
  | .linear => "linear"

def onViolationValue : OnViolation → String
  | .clamp => "clamp"
  | .decline => "decline"
  | .error => "error"

def modeValue : ModelReferenceMode → String
  | .exact => "exact"
  | .approximation => "approximation"

/-- The fields a step type declares. -/
def kindFields : StepKind → List (String × FieldValue)
  | .input inputName onMissing =>
    [("input_name", .text inputName), ("on_missing", .text (onMissingValue onMissing))]
  | .lookup referenceTableRef keyExpr asAt onMiss =>
    [("reference_table_ref", .ref referenceTableRef), ("key_expr", .names keyExpr),
      ("as_at", .text asAt), ("on_miss", .text (onMissValue onMiss))]
  | .table rateTableRef keyExpr onMiss interpolation =>
    [("rate_table_ref", .ref rateTableRef), ("key_expr", .names keyExpr),
      ("on_miss", .text (onMissValue onMiss)), ("interpolation", .text (interpolationValue interpolation))]
  | .expression expr resultType => [("expr", .text expr), ("result_type", .text resultType)]
  | .modelCall target mode featureMap resultType =>
    [("model_ref", match target with | .model r => .ref r | .perilStructure _ => .null),
      ("peril_structure_ref", match target with | .model _ => .null | .perilStructure r => .ref r),
      ("mode", .text (modeValue mode)), ("feature_map", mappingOf featureMap),
      ("result_type", .ofOption resultType)]
  | .constraint condition onViolation clampBounds reasonCode =>
    [("condition", .text condition), ("on_violation", .text (onViolationValue onViolation)),
      ("clamp_bounds", (clampBounds.map mappingOf).getD .null), ("reason_code", .text reasonCode)]
  | .output outputName rounding =>
    [("output_name", .text outputName), ("rounding", .rounding rounding)]

/-- `model_dump` of a step. -/
def stepFields (s : RatingStep) : List (String × FieldValue) :=
  [("step_id", .text s.stepId), ("label", .text s.label), ("note", .ofOption s.note),
    ("consumes", .names s.consumes), ("produces", .names s.produces),
    ("type", .text (stepType s.kind))] ++ kindFields s.kind

/-- `dump.get(key)`. -/
def fieldOf (fields : List (String × FieldValue)) (key : String) : FieldValue :=
  (fields.lookup key).getD .null

structure MountDump where
  ref : ArtifactRef
  mountPoint : String
  inputs : Finset (String × String)
  outputs : Finset (String × String)
  purposes : Option (List MountPurpose)
  deriving DecidableEq

def mountDump (m : SubGraphRef) : MountDump :=
  ⟨m.ref, m.mountPoint, m.inputs.entries.toFinset, m.outputs.entries.toFinset, m.purposes⟩

/-- What an input is compared by: bounds are numbers. -/
def fieldDump (f : InputContractField) : InputContractField × Option ℚ × Option ℚ :=
  ({ f with min := none, max := none }, f.min.map Bound.toRat, f.max.map Bound.toRat)

/-! ## The diff of two algorithms -/

structure InterfaceDelta where
  name : String
  change : Applied
  deriving DecidableEq

/-- `_interface_deltas`: the entries that differ, by name. -/
def interfaceDeltas {α δ : Type} [DecidableEq δ] (name : α → String) (dump : α → δ)
    (old new : List α) : List InterfaceDelta :=
  (sortedSet (old.map name ++ new.map name)).filterMap fun n =>
    (diffAt name dump old new n).map (⟨n, ·⟩)

structure StepsDiff where
  added : List String
  removed : List String
  /-- The fields that changed, by step id. -/
  changed : List (String × String)

def changedFields (o n : RatingStep) : List String :=
  (sortedSet ((stepFields o).map (·.1) ++ (stepFields n).map (·.1))).filter fun key =>
    fieldOf (stepFields o) key ≠ fieldOf (stepFields n) key

def changedFieldsAt (old new : List RatingStep) (stepId : String) : List String :=
  match byKey RatingStep.stepId old stepId, byKey RatingStep.stepId new stepId with
  | some o, some n => changedFields o n
  | _, _ => []

/-- `_diff_steps`. -/
def diffSteps (old new : List RatingStep) : StepsDiff :=
  let oldIds := old.map RatingStep.stepId
  let newIds := new.map RatingStep.stepId
  { added := sortedSet (newIds.filter (· ∉ oldIds))
    removed := sortedSet (oldIds.filter (· ∉ newIds))
    changed := (sortedSet (oldIds.filter (· ∈ newIds))).flatMap fun sid =>
      (changedFieldsAt old new sid).map (sid, ·) }

/-! ## Changes -/

/-- The canonical text of a reference: `type:slug@version`. -/
def refText (r : ArtifactRef) : String := r.type ++ ":" ++ r.slug ++ "@" ++ toString r.version

inductive PinKind
  | rateTables
  | models
  | referenceTables
  | customObjectives
  | subGraphs
  deriving DecidableEq

def PinKind.name : PinKind → String
  | .rateTables => "rate_tables"
  | .models => "models"
  | .referenceTables => "reference_tables"
  | .customObjectives => "custom_objectives"
  | .subGraphs => "sub_graphs"

/-- `_PIN_KINDS`. -/
def pinKinds : List PinKind :=
  [.rateTables, .models, .referenceTables, .customObjectives, .subGraphs]

abbrev Pins := PinKind → List ArtifactRef

structure RatingVersion where
  /-- The resolved algorithm. -/
  algorithm : Option RatingAlgorithm
  pins : Option Pins
  modelReferenceMode : ModelReferenceMode

inductive DeltaKind
  | stepAdded
  | stepRemoved
  | stepChanged
  | tableRepointed
  | pin
  | inputField
  | output
  deriving DecidableEq

/-- One derived change and the payload its substitution needs; the ids `c1, c2, …` by number. -/
structure Change where
  id : ℕ := 0
  kind : DeltaKind
  stepId : Option String := none
  oldStep : Option RatingStep := none
  newStep : Option RatingStep := none
  oldMount : Option SubGraphRef := none
  newMount : Option SubGraphRef := none
  /-- The pin list, the reference, and whether the candidate added it. -/
  pin : Option (PinKind × ArtifactRef × Bool) := none
  fields : List InterfaceDelta := []
  outputs : List InterfaceDelta := []

namespace Change

variable (c : Change)

def mountPoint : Option String := (c.newMount.or c.oldMount).map SubGraphRef.mountPoint

/-- The graph node a change is about. -/
def nodeId : Option String := c.stepId.or c.mountPoint

/-- The names the change's step, or mount, produces on one side. -/
def produces (new : Bool) : List String :=
  match if new then c.newStep else c.oldStep with
  | some step => step.produces
  | none => ((if new then c.newMount else c.oldMount).map fun m => m.outputs.values).getD []

def step : Option RatingStep := c.newStep.or c.oldStep

/-- The reference and the description of a `pin` change. -/
def pinKey : String × String := match c.pin with
  | some (k, r, added) =>
    (refText r, k.name ++ " pin " ++ refText r ++ if added then " added" else " removed")
  | none => ("", "")

end Change

structure Derivation where
  baseline : RatingAlgorithmDraft
  candidate : RatingAlgorithmDraft
  changes : List Change

inductive DeriveError
  | modelReferenceMode
  | noAlgorithm
  deriving DecidableEq

/-- `_step_ref`: the artifact a step names, with its pin list. -/
def stepRef (s : RatingStep) : Option (PinKind × ArtifactRef) := match s.kind with
  | .table r .. => some (.rateTables, r)
  | .lookup r .. => some (.referenceTables, r)
  | .modelCall target .. => some (.models, target.ref)
  | _ => none

/-- The changes of steps, by step id. -/
def stepChanges (base cand : List RatingStep) : List Change :=
  let diff := diffSteps base cand
  (sortedSet (diff.added ++ diff.removed ++ diff.changed.map (·.1))).map fun sid =>
    let old := byKey RatingStep.stepId base sid
    let new := byKey RatingStep.stepId cand sid
    if sid ∈ diff.added then { kind := .stepAdded, stepId := some sid, newStep := new }
    else if sid ∈ diff.removed then { kind := .stepRemoved, stepId := some sid, oldStep := old }
    else
      let onlyRef := (diff.changed.filter (·.1 = sid)).all fun c =>
        c.2 = "rate_table_ref" ∨ c.2 = "reference_table_ref"
      { kind := if onlyRef then .tableRepointed else .stepChanged
        stepId := some sid, oldStep := old, newStep := new }

/-- The change of one mount, where it differs in its reference, its ports or its purposes. -/
def mountChange (base cand : List SubGraphRef) (point : String) : Option Change :=
  let old := byKey SubGraphRef.mountPoint base point
  let new := byKey SubGraphRef.mountPoint cand point
  match old, new with
  | none, none => none
  | none, some _ => some { kind := .stepAdded, newMount := new }
  | some _, none => some { kind := .stepRemoved, oldMount := old }
  | some o, some n =>
    if mountDump o = mountDump n then none
    else some { kind := .stepChanged, oldMount := old, newMount := new }

def mountChanges (base cand : List SubGraphRef) : List Change :=
  (sortedSet (base.map SubGraphRef.mountPoint ++ cand.map SubGraphRef.mountPoint)).filterMap
    (mountChange base cand)

def nodeChanges (base cand : RatingAlgorithmDraft) : List Change :=
  (stepChanges base.steps cand.steps ++ mountChanges base.subGraphs cand.subGraphs).insertionSort
    fun c c' => c.nodeId.getD "" ≤ c'.nodeId.getD ""

/-- The references the steps and mounts of the changes name. -/
def namedRefs (drafts : List Change) : List ArtifactRef :=
  drafts.flatMap fun c =>
    ((c.oldStep.toList ++ c.newStep.toList).filterMap stepRef).map (·.2) ++
      (c.oldMount.toList ++ c.newMount.toList).map SubGraphRef.ref

/-- The pin differences that no step or mount change accounts for. -/
def pinChanges (base cand : Option Pins) (drafts : List Change) : List Change :=
  match base, cand with
  | some base, some cand =>
    (pinKinds.flatMap fun k =>
      (((base k).filter fun r => r ∉ cand k ∧ r ∉ namedRefs drafts).map fun r =>
        { kind := .pin, pin := some (k, r, false) }) ++
      ((cand k).filter fun r => r ∉ base k ∧ r ∉ namedRefs drafts).map fun r =>
        { kind := .pin, pin := some (k, r, true) })
  | _, _ => []

/-- The one change whose step reads a delta, if there is one alone. -/
def reader (drafts : List Change) (reads : RatingStep → String → Bool) (d : InterfaceDelta) :
    Option ℕ :=
  let readers := drafts.zipIdx.filterMap fun (c, i) =>
    (if d.change ≠ .removed then c.newStep else c.oldStep).bind fun s =>
      if reads s d.name then some i else none
  match readers with
  | [i] => some i
  | _ => none

def readsInput (s : RatingStep) (name : String) : Bool := match s.kind with
  | .input inputName _ => inputName = name
  | _ => false

def readsOutput (s : RatingStep) (name : String) : Bool := match s.kind with
  | .output outputName _ => outputName = name
  | _ => false

/-- The changes in derived order, numbered from 1. -/
def deriveChanges (base cand : RatingAlgorithmDraft) (basePins candPins : Option Pins) : List Change :=
  let drafts := nodeChanges base cand
  let fieldDeltas := interfaceDeltas InputContractField.name fieldDump base.inputContract
    cand.inputContract
  let outputDeltas := interfaceDeltas AlgorithmOutput.name id base.outputs cand.outputs
  let steps := drafts.zipIdx.map fun (c, i) => { c with
    fields := fieldDeltas.filter fun d => reader drafts readsInput d = some i
    outputs := outputDeltas.filter fun d => reader drafts readsOutput d = some i }
  let pins := (pinChanges basePins candPins drafts).insertionSort fun c c' =>
    c.pinKey.1 < c'.pinKey.1 ∨ c.pinKey.1 = c'.pinKey.1 ∧ c.pinKey.2 ≤ c'.pinKey.2
  let own :=
    ((fieldDeltas.filter fun d => reader drafts readsInput d = none).map fun d =>
      { kind := .inputField, fields := [d] : Change }) ++
    (outputDeltas.filter fun d => reader drafts readsOutput d = none).map fun d =>
      { kind := .output, outputs := [d] : Change }
  ((steps ++ pins ++ own).zipIdx 1).map fun (c, n) => { c with id := n }

/-- `_derive`. -/
def derive (baseline candidate : RatingVersion) : Except DeriveError Derivation := do
  Failure.ensure (baseline.modelReferenceMode = candidate.modelReferenceMode) .modelReferenceMode
  let base ← Failure.require baseline.algorithm .noAlgorithm
  let cand ← Failure.require candidate.algorithm .noAlgorithm
  return ⟨base.toRatingAlgorithmDraft, cand.toRatingAlgorithmDraft,
    deriveChanges base.toRatingAlgorithmDraft cand.toRatingAlgorithmDraft baseline.pins
      candidate.pins⟩

/-! ## Subsets -/

/-- `_APPLIED`. -/
def applied : DeltaKind → Applied
  | .stepAdded => .added
  | .stepRemoved => .removed
  | _ => .changed

def lastOf (entries : List (String × Applied)) (k : String) : Option Applied :=
  entries.reverse.lookup k

def stepsApplied (members : List Change) : String → Option Applied :=
  lastOf (members.filterMap fun c => c.stepId.map (·, applied c.kind))

def mountsApplied (members : List Change) : String → Option Applied :=
  lastOf (members.filterMap fun c => c.mountPoint.map (·, applied c.kind))

def fieldsApplied (members : List Change) : String → Option Applied :=
  lastOf (members.flatMap fun c => c.fields.map fun d => (d.name, d.change))

def outputsApplied (members : List Change) : String → Option Applied :=
  lastOf (members.flatMap fun c => c.outputs.map fun d => (d.name, d.change))

/-- The baseline with each difference of the members applied. -/
def mergedAlgorithm (base cand : RatingAlgorithmDraft) (members : List Change) :
    RatingAlgorithmDraft :=
  { base with
    steps := merged RatingStep.stepId base.steps cand.steps (stepsApplied members)
    subGraphs := merged SubGraphRef.mountPoint base.subGraphs cand.subGraphs (mountsApplied members)
    inputContract := merged InputContractField.name base.inputContract cand.inputContract
      (fieldsApplied members)
    outputs := merged AlgorithmOutput.name base.outputs cand.outputs (outputsApplied members) }

/-- `_subset_algorithm`. -/
def subsetAlgorithm (d : Derivation) (members : List Change) (everyChange : Bool) :
    RatingAlgorithmDraft :=
  if members = [] then d.baseline
  else if everyChange then d.candidate
  else mergedAlgorithm d.baseline d.candidate members

def needed (a : RatingAlgorithmDraft) (k : PinKind) : List ArtifactRef :=
  (a.steps.filterMap stepRef).filterMap (fun p => if p.1 = k then some p.2 else none) ++
    if k = .subGraphs then a.subGraphs.map SubGraphRef.ref else []

def pinsOf (members : List Change) (added : Bool) (k : PinKind) : List ArtifactRef :=
  members.filterMap fun c => c.pin.bind fun p =>
    if p.1 = k ∧ p.2.2 = added then some p.2.1 else none

def mergedPins (before after : Pins) (algorithm : RatingAlgorithmDraft) (members : List Change) :
    Pins := fun k =>
  let kept := (before k).filter fun r =>
    r ∉ pinsOf members false k ∧ (r ∈ after k ∨ r ∈ needed algorithm k)
  let extra := (needed algorithm k).filter (· ∉ kept) ++
    ((pinsOf members true k).filter (· ∉ kept)).dedup.insertionSort fun r r' =>
      refText r ≤ refText r'
  kept ++ extra.eraseDups

/-- `_subset_pins`. -/
def subsetPins (before after : Pins) (algorithm : RatingAlgorithmDraft) (members : List Change)
    (everyChange : Bool) : Pins :=
  if members = [] then before
  else if everyChange then after
  else mergedPins before after algorithm members

end GiPricing.Attribution
