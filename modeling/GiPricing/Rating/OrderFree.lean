import GiPricing.Rating.Typing

/-! # Whether compile-time types depend on the order of the steps

A name with two producers of different types takes the type of whichever is listed last, and two
names on one column are taken for one value by whichever producers are listed last. The engine
runs the producers in dependency order, whatever the list.
-/

namespace GiPricing

open GiPricing.Graph

namespace RatingAlgorithmDraft

variable (draft : RatingAlgorithmDraft) {name : String} {s : RatingStep}

/-- The step produces the name, with a type that is known. -/
def TypedProducer (name : String) (s : RatingStep) : Prop :=
  s ∈ draft.steps ∧ name ∈ s.produces ∧ (s.declaredType? draft.typedNames).isSome = true

/-- The typed producer of a name that comes after the others in every dependency order. -/
def LastTyped (purpose : Option MountPurpose) (name : String) (s : RatingStep) : Prop :=
  draft.TypedProducer name s ∧ ∀ l, TopologicalOrder (draft.nodesFor purpose) l →
    ∀ s', draft.TypedProducer name s' → s' ≠ s → l.idxOf s'.stepId < l.idxOf s.stepId

def reorder (steps : List RatingStep) : RatingAlgorithmDraft := { draft with steps := steps }

/-- In every order of the steps each name has the type of its last producer in dependency order,
and both checks come to what they come to in the order given. -/
def OrderFree (pins : ColumnPins) : Prop := ∀ steps : List RatingStep, steps.Perm draft.steps →
  (∀ purpose name s, draft.LastTyped purpose name s →
    producerTypes draft.typedNames steps name = s.declaredType? draft.typedNames) ∧
  ((draft.reorder steps).checkResultTypes = [] ↔ draft.checkResultTypes = []) ∧
  (checkModelCallColumns pins steps).isOk = (checkModelCallColumns pins draft.steps).isOk

variable {draft}

/-! ## Types -/

end RatingAlgorithmDraft

/-! ## A price in two types -/

end GiPricing
