import GiPricing.Dataflow.Store
import GiPricing.Failure.Except
import GiPricing.Ladder.Basic
import GiPricing.Rating.Invariants

/-! # Values and failures of scoring

A quote, the engine's context and the engine's result are mappings from names to values. A
function of the scorer returns its result or raises.
-/

namespace GiPricing

open Decimal

/-- A value of a quote or of an engine result. A float is given by the number its shortest
text writes, a list or a mapping by its text and whether a float occurs in it. -/
inductive Value
  | null
  | bool (b : Bool)
  | int (n : ℤ)
  | float (written : Number)
  | decimal (value : Number)
  | text (s : String)
  | compound (json : String) (holdsFloat : Bool)
  deriving DecidableEq, Repr

namespace Value

/-- `Decimal(str(value))`, where `none` is a refusal. -/
def asDecimal : Value → Option Number
  | int n => some (.finite n)
  | float x => some x
  | decimal x => some x
  | text s => parse s
  | null | bool _ | compound .. => none

/-- Python's truth value of a flag. -/
def truthy : Value → Bool
  | null => false
  | bool b => b
  | int n => n ≠ 0
  | float x => x ≠ .finite 0
  | decimal x => x ≠ .finite 0
  | text s => s ≠ ""
  | compound s _ => s ≠ "[]" && s ≠ "\x7b\x7d"

/-- The values a scored output may hold (`OutputValue`): every scalar is strict. -/
def servable : Value → Bool
  | float _ | decimal _ => false
  | compound _ holdsFloat => !holdsFloat
  | null | bool _ | int _ | text _ => true

end Value

abbrev Context := Dataflow.Store String Value

/-- `context.get(key)` with null for an absent key. -/
def Context.read (c : Context) (key : String) : Value := (c key).getD .null

/-- The breaches of the contract of a quote, with what their messages name. -/
inductive ContractBreach
  | required (name : String)
  | notOfType (name : String)
  | patternMismatch (name : String)
  | outsideDomain (name : String)
  | belowMinimum (name : String)
  | aboveMaximum (name : String)
  | notRepresentable (name : String)
  | purposeNotMounted
  | billingSurface (names : List String)
  | shadowing (names : List String)
  | noRatingVersion
  | asAtNotDate (stepId name : String)
  | effectiveDateNotDate
  deriving DecidableEq, Repr

/-- The coded refusals of a quote, with what their messages name. -/
inductive Refusal
  | inputContract (breach : ContractBreach)
  | modelCall (detail : Value)
  | cellUnparseable (stepId : String)
  | tableMiss (stepId : String)
  | lookupMiss (stepId : String)
  | typeMismatch (outputName type : String)
  | evaluationFailed (stepId : Option String)
  | ladderReconciliation (violations : List LadderViolation)
  deriving DecidableEq

/-- What the scorer raises. `arithmetic` is a decimal signal or an overflow, which is no
`ValueError`; `valueError` carries no code; `patternError` is a pattern that does not compile. -/
inductive Raised
  | coded (refusal : Refusal)
  | valueError
  | notImplemented
  | arithmetic
  | assertion
  | typeError
  | keyError
  | patternError
  deriving DecidableEq

/-! ## The names a generated node writes -/

def exactPrefix : String := "__exact__"

def exactKey (name : String) : String := exactPrefix ++ name

def violatedKey (stepId : String) : String := stepId ++ "__violated"
def beforeKey (stepId : String) : String := stepId ++ "__before"
def minKey (stepId : String) : String := stepId ++ "__min"
def maxKey (stepId : String) : String := stepId ++ "__max"

end GiPricing
