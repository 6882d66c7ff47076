import GiPricing.Graph.Kahn
import GiPricing.Graph.Reach
import GiPricing.Rating.Vocabulary

/-! # The graph invariants

Saving checks the graph of a Rating Algorithm once for each purpose some mount selects and
once for its unconditional mounts. A mount counts as one node over its ports.
-/

namespace GiPricing

/-- A step or a mount, seen as a node of the graph. -/
structure GraphNode where
  stepId : String
  consumes : List String
  produces : List String
  deriving DecidableEq, Repr

def RatingStep.node (s : RatingStep) : GraphNode := ⟨s.stepId, s.consumes, s.produces⟩

inductive IssueCode | validationFailed | ratingGraphUnresolvedRef | ratingGraphCyclic
  deriving DecidableEq, Repr

/-- The breaches of the graph invariants, with what their messages name. -/
inductive ValidationIssue
  | duplicateStepId (stepId : String)
  | mountPointNotUnique
  | blankInput (mountPoint port : String)
  | blankOutput (mountPoint port : String)
  | outputWithoutStep (name : String)
  | undefinedValue (stepId name : String) (onlyIn : List MountPurpose)
  | onCycle (stepId : String)
  | ambiguousProducer (name : String) (producers : ℕ) (stepId : String)
  | orphan (stepId : String)
  | secondRiskPrice (stepId : String)
  deriving DecidableEq, Repr

def ValidationIssue.code : ValidationIssue → IssueCode
  | blankInput .. | undefinedValue .. => .ratingGraphUnresolvedRef
  | onCycle .. => .ratingGraphCyclic
  | _ => .validationFailed

namespace Graph

variable (nodes : List GraphNode)

def ids : List String := nodes.map GraphNode.stepId

def listedBy (names : GraphNode → List String) (name : String) : List String :=
  nodes.flatMap fun n => (names n).filterMap fun m => if m = name then some n.stepId else none

/-- `_produced_by` and `_consumed_by`. -/
def producedBy (name : String) : List String := listedBy nodes GraphNode.produces name
def consumedBy (name : String) : List String := listedBy nodes GraphNode.consumes name

def byId (sid : String) : Option GraphNode := nodes.find? fun n => n.stepId = sid

/-- The other producers of what a node consumes. A node never depends on itself, even when it
produces a name it consumed. -/
def nodeDependencies (n : GraphNode) : List String :=
  ((n.consumes.flatMap (producedBy nodes)).filter fun p => p ≠ n.stepId).dedup

def dependencies (sid : String) : List String :=
  ((byId nodes sid).map (nodeDependencies nodes)).getD []

def order : List String := Kahn.order Kahn.lifo (dependencies nodes) (ids nodes)

def hasCycle : Bool := (order nodes).length ≠ nodes.length

def successors (sid : String) : List String :=
  ((byId nodes sid).map fun n => n.produces.flatMap (consumedBy nodes)).getD []

def predecessors (sid : String) : List String :=
  ((byId nodes sid).map fun n => n.consumes.flatMap (producedBy nodes)).getD []

/-- `_reachable` and `_reaches_output`. -/
def reachable (start : List String) : List String := Reach.reach (successors nodes) (ids nodes) start
def reachesOutput (start : List String) : List String :=
  Reach.reach (predecessors nodes) (ids nodes) start

def liesOnCycle (sid : String) : Bool :=
  (Reach.reach (dependencies nodes) (ids nodes) (dependencies nodes sid)).contains sid

/-- The producers of a name in the order served, each but the first with the one before. -/
def rechained (name : String) : List String :=
  ((producedBy nodes name).insertionSort fun a b =>
    (order nodes).idxOf a ≤ (order nodes).idxOf b).tail

def producedNames : List String := (nodes.flatMap GraphNode.produces).eraseDups

def consumesName (sid name : String) : Bool :=
  ((byId nodes sid).map fun n => n.consumes.contains name).getD false

end Graph

open GiPricing.Graph

def undefinedIssues (nodes : List GraphNode) (purposeOnly : String → List MountPurpose) :
    List ValidationIssue :=
  nodes.flatMap fun n => n.consumes.filterMap fun name =>
    if (producedBy nodes name).isEmpty then
      some (.undefinedValue n.stepId name (purposeOnly name)) else none

def cycleIssues (nodes : List GraphNode) : List ValidationIssue :=
  if hasCycle nodes then
    (nodes.filter fun n => !(order nodes).contains n.stepId && liesOnCycle nodes n.stepId).map
      fun n => .onCycle n.stepId
  else []

/-- Each producer of a name after the first consumes the name. -/
def chainIssues (nodes : List GraphNode) : List ValidationIssue :=
  if hasCycle nodes then []
  else (producedNames nodes).flatMap fun name => (rechained nodes name).filterMap fun sid =>
    if consumesName nodes sid name then none
    else some (.ambiguousProducer name (producedBy nodes name).length sid)

def inputIds (steps : List RatingStep) : List String :=
  (steps.filter RatingStep.isInput).map RatingStep.stepId
def outputIds (steps : List RatingStep) : List String :=
  (steps.filter RatingStep.isOutput).map RatingStep.stepId

def orphanIssues (steps : List RatingStep) (nodes : List GraphNode) : List ValidationIssue :=
  let fromInput := reachable nodes (inputIds steps)
  let feedsOutput := reachesOutput nodes (outputIds steps)
  (steps.filter fun s => !fromInput.contains s.stepId && !feedsOutput.contains s.stepId).map
    fun s => .orphan s.stepId

def RatingStep.outputName? (s : RatingStep) : Option String := match s.kind with
  | .output name _ => some name
  | _ => none

def riskPremiumOutput : String := "risk_premium_minor"

def riskPriceIssues (steps : List RatingStep) (nodes mounts : List GraphNode)
    (purposeMounts : List String) : List ValidationIssue :=
  let risk := (steps.filter fun s => s.outputName? = some riskPremiumOutput).map RatingStep.stepId
  (mounts.filter fun m => purposeMounts.contains m.stepId &&
    risk.any (reachable nodes [m.stepId]).contains).map fun m => .secondRiskPrice m.stepId

/-- One purpose's graph: the steps with the given mounts. -/
def RatingAlgorithmDraft.nodesWith (draft : RatingAlgorithmDraft) (mounts : List GraphNode) :
    List GraphNode := draft.steps.map RatingStep.node ++ mounts

/-- The breaches of one purpose's graph. -/
def graphPassIssues (draft : RatingAlgorithmDraft) (mounts : List GraphNode)
    (purposeMounts : List String) (purposeOnly : String → List MountPurpose) :
    List ValidationIssue :=
  let nodes := draft.nodesWith mounts
  ((draft.outputs.filter fun o => !(draft.steps.filterMap RatingStep.outputName?).contains o.name).map
      fun o => .outputWithoutStep o.name)
    ++ undefinedIssues nodes purposeOnly ++ cycleIssues nodes ++ chainIssues nodes
    ++ orphanIssues draft.steps nodes ++ riskPriceIssues draft.steps nodes mounts purposeMounts

def SubGraphRef.selects (m : SubGraphRef) (purpose : Option MountPurpose) : Bool :=
  match m.purposes with
  | none => true
  | some ps => match purpose with
    | none => false
    | some p => ps.contains p

/-- A mount as a node over its ports; a blank parent name is neither consumed nor produced. -/
def SubGraphRef.node (m : SubGraphRef) : GraphNode :=
  ⟨m.mountPoint, m.inputs.values.filter (!isBlank ·), m.outputs.values.filter (!isBlank ·)⟩

namespace RatingAlgorithmDraft

variable (draft : RatingAlgorithmDraft)

def stepIdIssues : List ValidationIssue :=
  let ids := draft.steps.map RatingStep.stepId
  (ids.zipIdx.filter fun (i, k) => (ids.take k).contains i).map fun (i, _) => .duplicateStepId i

def mountPointIssues : List ValidationIssue :=
  let points := draft.subGraphs.map SubGraphRef.mountPoint
  if ¬ points.Nodup ∨ ∃ p ∈ points, p ∈ draft.steps.map RatingStep.stepId then
    [.mountPointNotUnique] else []

def blankIssues : List ValidationIssue :=
  draft.subGraphs.flatMap fun m =>
    (m.inputs.entries.filter fun e => isBlank e.2).map (fun e => .blankInput m.mountPoint e.1) ++
    (m.outputs.entries.filter fun e => isBlank e.2).map fun e => .blankOutput m.mountPoint e.1

/-- The purposes some mount selects, `cancellation` first: their texts are sorted. -/
def selectedPurposes : List MountPurpose :=
  [MountPurpose.cancellation, .midTermAdjustment].filter fun p =>
    draft.subGraphs.any fun m => (m.purposes.getD []).contains p

def mountsFor (purpose : Option MountPurpose) : List GraphNode :=
  (draft.subGraphs.filter (·.selects purpose)).map SubGraphRef.node

def purposeMounts : List String :=
  (draft.subGraphs.filter fun m => m.purposes.isSome).map SubGraphRef.mountPoint

def purposeOnly (name : String) : List MountPurpose :=
  draft.subGraphs.flatMap fun m =>
    if m.node.produces.contains name then m.purposes.getD [] else []

/-- The graph of one purpose, and of every other purpose when `none`. -/
def passIssues (purpose : Option MountPurpose) : List ValidationIssue :=
  graphPassIssues draft (draft.mountsFor purpose) draft.purposeMounts draft.purposeOnly

/-- Every breach, in the order saving checks them. -/
def graphInvariantIssues : List ValidationIssue :=
  match draft.stepIdIssues ++ draft.mountPointIssues with
  | [] => draft.blankIssues ++
      ((draft.selectedPurposes.map some ++ [none]).flatMap draft.passIssues).eraseDups
  | issues => issues

end RatingAlgorithmDraft

/-- A Rating Algorithm: a draft whose graph has no breach. -/
structure RatingAlgorithm extends RatingAlgorithmDraft where
  graph_ok : toRatingAlgorithmDraft.graphInvariantIssues = []
  deriving DecidableEq

end GiPricing
