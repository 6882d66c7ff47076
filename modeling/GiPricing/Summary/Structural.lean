import GiPricing.Attribution.Covers
import GiPricing.Order.SortedBy

/-! # The structural diff and its prose

The steps, mounts, inputs and outputs in which two algorithms differ, and the lines that say so.
-/

namespace GiPricing.Summary

open Attribution Merge

/-- One changed field of a step on both sides, with the texts of the two values. -/
structure AlgorithmStepChange where
  stepId : String
  field : String
  before : String
  after : String
  deriving DecidableEq

structure AlgorithmTableRepoint where
  stepId : String
  field : String
  before : ArtifactRef
  after : ArtifactRef
  deriving DecidableEq

structure AlgorithmSubGraphChange where
  mountPoint : String
  before : Option ArtifactRef
  after : Option ArtifactRef
  portsChanged : Bool
  purposesChanged : Bool
  deriving DecidableEq

structure AlgorithmDiff where
  addedSteps : List String
  removedSteps : List String
  changedSteps : List AlgorithmStepChange
  repointedTables : List AlgorithmTableRepoint
  inputContractChanged : Bool
  outputsChanged : Bool
  subGraphMounts : List AlgorithmSubGraphChange
  inputContractDeltas : List InterfaceDelta
  outputDeltas : List InterfaceDelta
  deriving DecidableEq

/-- The reference of a `table` or `lookup` step. -/
def tableField (s : RatingStep) : Option (String × ArtifactRef) := match s.kind with
  | .table r _ _ _ => some ("rate_table_ref", r)
  | .lookup r _ _ _ => some ("reference_table_ref", r)
  | _ => none

/-- A step that names another table of its kind. -/
def repointOf (o n : RatingStep) : Option AlgorithmTableRepoint :=
  match tableField o, tableField n with
  | some (field, before), some (field', after) =>
    if field = field' ∧ before ≠ after then some ⟨o.stepId, field, before, after⟩ else none
  | _, _ => none

def repointAt (old new : List RatingStep) (stepId : String) : Option AlgorithmTableRepoint :=
  match byKey RatingStep.stepId old stepId, byKey RatingStep.stepId new stepId with
  | some o, some n => repointOf o n
  | _, _ => none

def mountChange (o n : Option SubGraphRef) (mountPoint : String) : Option AlgorithmSubGraphChange :=
  let before := o.map SubGraphRef.ref
  let after := n.map SubGraphRef.ref
  let (ports, purposes) := match o, n with
    | some o, some n =>
      (decide (((mountDump o).inputs, (mountDump o).outputs) ≠
        ((mountDump n).inputs, (mountDump n).outputs)), decide (o.purposes ≠ n.purposes))
    | _, _ => (false, false)
  if before = after ∧ ports = false ∧ purposes = false then none
  else some ⟨mountPoint, before, after, ports, purposes⟩

/-- `_diff_mounts`, without the fragments. -/
def diffMounts (old new : List SubGraphRef) : List AlgorithmSubGraphChange :=
  (sortedSet (old.map SubGraphRef.mountPoint ++ new.map SubGraphRef.mountPoint)).filterMap fun point =>
    mountChange (byKey SubGraphRef.mountPoint old point) (byKey SubGraphRef.mountPoint new point) point

section

variable (fieldRepr : RatingStep → String → String)

/-- The changed fields of a step; `fieldRepr` is the text of `dump.get(key)`. -/
def changesAt (old new : List RatingStep) (stepId : String) : List AlgorithmStepChange :=
  match byKey RatingStep.stepId old stepId, byKey RatingStep.stepId new stepId with
  | some o, some n => (changedFields o n).map fun key => ⟨stepId, key, fieldRepr o key, fieldRepr n key⟩
  | _, _ => []

def commonIds (old new : List RatingStep) : List String :=
  sortedSet ((old.map RatingStep.stepId).filter (· ∈ new.map RatingStep.stepId))

def diffAlgorithms (old new : RatingAlgorithmDraft) : AlgorithmDiff where
  addedSteps := (diffSteps old.steps new.steps).added
  removedSteps := (diffSteps old.steps new.steps).removed
  changedSteps := (commonIds old.steps new.steps).flatMap (changesAt fieldRepr old.steps new.steps)
  repointedTables := (commonIds old.steps new.steps).filterMap (repointAt old.steps new.steps)
  inputContractChanged := old.inputContract.map fieldDump ≠ new.inputContract.map fieldDump
  outputsChanged := old.outputs ≠ new.outputs
  subGraphMounts := diffMounts old.subGraphs new.subGraphs
  inputContractDeltas :=
    interfaceDeltas InputContractField.name fieldDump old.inputContract new.inputContract
  outputDeltas := interfaceDeltas AlgorithmOutput.name id old.outputs new.outputs

end

/-! ## The lines -/

def appliedText : Applied → String
  | .added => "added"
  | .removed => "removed"
  | .changed => "changed"

/-- `str` of a reference, or of `None`. -/
def optionText (r : Option ArtifactRef) : String := (r.map refText).getD "None"

def stepLine (c : AlgorithmStepChange) : String :=
  "Step " ++ c.stepId ++ " field " ++ c.field ++ " changed: " ++ c.before ++ " -> " ++ c.after ++ "."

def repointLine (r : AlgorithmTableRepoint) : String :=
  "Step " ++ r.stepId ++ " re-pointed from " ++ refText r.before ++ " to " ++ refText r.after ++ "."

def mountLine (m : AlgorithmSubGraphChange) : String :=
  "Sub-graph mount " ++ m.mountPoint ++ " changed: " ++ optionText m.before ++ " -> " ++
    optionText m.after ++ (if m.portsChanged then " (ports changed)" else "") ++
    (if m.purposesChanged then " (purposes changed)" else "") ++ "."

def deltaLine (side : String) (d : InterfaceDelta) : String :=
  side ++ " " ++ d.name ++ " " ++ appliedText d.change ++ "."

/-- `_structural_lines`. -/
def structuralLines (d : AlgorithmDiff) : List String :=
  (sortedBy id d.addedSteps).map (fun sid => "Step added: " ++ sid ++ ".") ++
  (sortedBy id d.removedSteps).map (fun sid => "Step removed: " ++ sid ++ ".") ++
  (sortedBy (fun c => toLex (c.stepId, c.field)) d.changedSteps).map stepLine ++
  (sortedBy (fun r => toLex (r.stepId, r.field)) d.repointedTables).map repointLine ++
  (sortedBy AlgorithmSubGraphChange.mountPoint d.subGraphMounts).map mountLine ++
  (sortedBy InterfaceDelta.name d.inputContractDeltas).map (deltaLine "Input") ++
  (sortedBy InterfaceDelta.name d.outputDeltas).map (deltaLine "Output")

/-! ## The order of the steps -/

/-- The same algorithm with its steps in another order. -/
structure Reordered (a a' : RatingAlgorithm) : Prop where
  inputContract : a.inputContract = a'.inputContract
  outputs : a.outputs = a'.outputs
  subGraphs : a.subGraphs = a'.subGraphs
  steps : a.steps.Perm a'.steps

theorem sortedSet_congr {l l' : List String} (h : ∀ k, k ∈ l ↔ k ∈ l') : sortedSet l = sortedSet l' := by
  apply List.Perm.eq_of_pairwise' (r := fun a b : String => a ≤ b)
  · exact List.pairwise_insertionSort _ _
  · exact List.pairwise_insertionSort _ _
  · apply (List.perm_ext_iff_of_nodup (nodup_sortedSet l) (nodup_sortedSet l')).mpr
    intro k
    rw [mem_sortedSet, mem_sortedSet, h]

theorem byKey_perm {α κ : Type*} [DecidableEq κ] {key : α → κ} {l l' : List α} (h : l.Perm l')
    (hl : (l.map key).Nodup) (k : κ) : byKey key l k = byKey key l' k := by
  have hl' : (l'.map key).Nodup := (h.map key).nodup_iff.mp hl
  cases hx : byKey key l k with
  | none =>
    have hk := byKey_eq_none.mp hx
    rw [(h.map key).mem_iff] at hk
    exact (byKey_eq_none.mpr hk).symm
  | some x =>
    obtain ⟨hmem, rfl⟩ := byKey_eq_some hx
    exact (byKey_of_mem hl' (h.mem_iff.mp hmem)).symm

theorem stepIds_nodup (a : RatingAlgorithm) : (a.steps.map RatingStep.stepId).Nodup :=
  (List.nodup_append.mp (graphInvariantIssues_eq_nil.mp a.graph_ok).ids_nodup).1

variable {a a' b b' : RatingAlgorithm} (fieldRepr : RatingStep → String → String)

theorem byKey_reordered (h : Reordered a a') :
    byKey RatingStep.stepId a.steps = byKey RatingStep.stepId a'.steps :=
  funext (byKey_perm h.steps (stepIds_nodup a))

theorem diffAlgorithms_reordered (h : Reordered a a') (h' : Reordered b b') :
    diffAlgorithms fieldRepr a.toRatingAlgorithmDraft b.toRatingAlgorithmDraft =
      diffAlgorithms fieldRepr a'.toRatingAlgorithmDraft b'.toRatingAlgorithmDraft := by
  have hmem : ∀ k, k ∈ a.steps.map RatingStep.stepId ↔ k ∈ a'.steps.map RatingStep.stepId :=
    fun k => (h.steps.map _).mem_iff
  have hmem' : ∀ k, k ∈ b.steps.map RatingStep.stepId ↔ k ∈ b'.steps.map RatingStep.stepId :=
    fun k => (h'.steps.map _).mem_iff
  have hchanges : changesAt fieldRepr a.steps b.steps = changesAt fieldRepr a'.steps b'.steps := by
    funext k
    rw [changesAt, changesAt, byKey_reordered h, byKey_reordered h']
  have hrepoints : repointAt a.steps b.steps = repointAt a'.steps b'.steps := by
    funext k
    rw [repointAt, repointAt, byKey_reordered h, byKey_reordered h']
  have hcommon : commonIds a.steps b.steps = commonIds a'.steps b'.steps :=
    sortedSet_congr fun k => by simp only [List.mem_filter, hmem, hmem']
  have hadded : (diffSteps a.steps b.steps).added = (diffSteps a'.steps b'.steps).added :=
    sortedSet_congr fun k => by simp only [List.mem_filter, hmem, hmem']
  have hremoved : (diffSteps a.steps b.steps).removed = (diffSteps a'.steps b'.steps).removed :=
    sortedSet_congr fun k => by simp only [List.mem_filter, hmem, hmem']
  rw [diffAlgorithms, diffAlgorithms, hadded, hremoved, hcommon, hchanges, hrepoints,
    h.inputContract, h'.inputContract, h.outputs, h'.outputs, h.subGraphs, h'.subGraphs]

end GiPricing.Summary
