import GiPricing.Rating.Accepted

/-! # Sub-graphs

A sub-graph is a stored fragment of a Rating Algorithm. Its input ports are the first
producers of its values and its output ports are the last consumers; it mounts nothing.
-/

namespace GiPricing

structure SubGraphInputPort where
  name : String
  type : String
  deriving DecidableEq, Repr

structure SubGraphBody where
  inputs : List SubGraphInputPort
  outputs : List AlgorithmOutput
  steps : List RatingStep
  changeNote : String
  deriving DecidableEq

inductive SubGraphBreach
  | blankChangeNote
  | duplicateStepId
  | inputOrOutputStep
  | duplicateInputPort
  | duplicateOutputPort
  | outputNotProduced (name : String)
  | undefinedValue (stepId name : String)
  | cycle
  | portNotChained (name stepId : String)
  | notChained (name : String) (producers : ℕ)
  | orphan (stepId : String)
  deriving DecidableEq, Repr

namespace SubGraphBody

open GiPricing.Graph

variable (body : SubGraphBody)

def ports : List String := body.inputs.map SubGraphInputPort.name
def declared : List String := body.outputs.map AlgorithmOutput.name
def nodes : List GraphNode := body.steps.map RatingStep.node

def ordered (name : String) : List String :=
  (producedBy body.nodes name).insertionSort fun a b =>
    (order body.nodes).idxOf a ≤ (order body.nodes).idxOf b

def chainBreaches : List SubGraphBreach :=
  (producedNames body.nodes).flatMap fun name =>
    ((body.ordered name).head?.toList.filterMap fun sid =>
      if body.ports.contains name && !consumesName body.nodes sid name then
        some (.portNotChained name sid) else none) ++
    (body.ordered name).tail.filterMap fun sid =>
      if consumesName body.nodes sid name then none
      else some (.notChained name (producedBy body.nodes name).length)

def orphanBreaches : List SubGraphBreach :=
  let fromInputs := reachable body.nodes (body.ports.flatMap (consumedBy body.nodes))
  let feedsOutput := reachesOutput body.nodes (body.declared.flatMap (producedBy body.nodes))
  (body.steps.filter fun s => !fromInputs.contains s.stepId && !feedsOutput.contains s.stepId).map
    fun s => .orphan s.stepId

def undefinedBreaches : List SubGraphBreach :=
  body.nodes.flatMap fun n => n.consumes.filterMap fun name =>
    if (producedBy body.nodes name).isEmpty && !body.ports.contains name then
      some (.undefinedValue n.stepId name) else none

/-- The breaches of a fragment's invariants, of which saving raises the first. -/
def breaches : List SubGraphBreach := List.flatten [
  if isBlank body.changeNote then [.blankChangeNote] else [],
  if (ids body.nodes).Nodup then [] else [.duplicateStepId],
  if body.steps.all RatingStep.isInterior then [] else [.inputOrOutputStep],
  if body.ports.Nodup then [] else [.duplicateInputPort],
  if body.declared.Nodup then [] else [.duplicateOutputPort],
  (body.declared.filter fun o => (producedBy body.nodes o).isEmpty).map .outputNotProduced,
  body.undefinedBreaches,
  if hasCycle body.nodes then [.cycle] else [],
  body.chainBreaches,
  body.orphanBreaches]

end SubGraphBody

structure SubGraph extends SubGraphBody where
  slug : String
  version : ℕ
  graph_ok : toSubGraphBody.breaches = []
  deriving DecidableEq

end GiPricing
