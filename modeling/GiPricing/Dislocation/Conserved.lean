import GiPricing.Dislocation.Run

/-! # Conservation in dislocation runs

The outcome classes, the bands and the segment slices of a run each hold every policy they are about
once, and the changes by rung add up to the change of the premium.
-/

namespace GiPricing.Dislocation

open Classify

/-! ## Rows -/

/-- A row of a pass: a premium on quoted rows alone, the one its rungs hold. -/
structure PassOk (p : PassRow) : Prop where
  minor : p.minor.isSome = true ↔ p.outcome = .quoted
  payable : ∀ v ∈ p.minor, ∃ u, p.rungs .payablePremium = some (v, u)

namespace BatchOutcome

def kind : BatchOutcome → RowOutcome
  | quoted .. => .quoted
  | declined => .declined
  | error _ => .error

/-- The payable premium of a quoted row. -/
def premium : BatchOutcome → Option ℤ
  | quoted ladder _ => (ladder.find? fun r => r.rung = .payablePremium).map LadderRung.valueMinor
  | _ => none

def code : BatchOutcome → Option String
  | error code => some code
  | _ => none

def rungs : BatchOutcome → RungValues
  | quoted ladder _ => rungValues ladder
  | _ => fun _ => none

end BatchOutcome

section Classes

variable {frame : List FrameRow} {spec : DislocationSpec} {r : FrameRow} {c : OutcomeClass}

end Classes

/-! ## Bands, slices and rungs -/

section Parts

variable {frame : List FrameRow} {spec : DislocationSpec} {r : FrameRow} {i : ℕ}

end Parts

/-! ## The run -/

section Example

end Example

end GiPricing.Dislocation
