import GiPricing.Dataflow.Entries
import GiPricing.Numeric.Decimal
import Mathlib.Data.List.Nodup
import Mathlib.Tactic

/-! # Rating Algorithms

A Rating Algorithm is a list of steps with typed inputs and outputs, and with mounts of
versioned sub-graphs. Steps name the values they consume and produce; a mount maps the
ports of a sub-graph to values of its parent.
-/

namespace GiPricing

/-- A pinned reference to one artifact version. Every mapping the code keys by the canonical
string `type:slug@version` is keyed by the reference itself, which that string determines. -/
structure ArtifactRef where
  type : String
  slug : String
  version : ℕ
  deriving DecidableEq, Repr

/-- A mapping in insertion order, with each key once. -/
structure Dict (α : Type*) where
  entries : List (String × α)
  nodup : (entries.map Prod.fst).Nodup
  deriving DecidableEq

namespace Dict

variable {α : Type*} (d : Dict α)

def empty : Dict α := ⟨[], List.nodup_nil⟩
def keys : List String := d.entries.map Prod.fst
def values : List α := d.entries.map Prod.snd
def get? (k : String) : Option α := d.entries.lookup k

theorem get?_eq_some {k : String} {v : α} : d.get? k = some v ↔ (k, v) ∈ d.entries :=
  Dataflow.lookup_eq_some_of_nodup d.nodup

theorem get?_eq_none {k : String} : d.get? k = none ↔ k ∉ d.keys := by
  constructor
  · intro h hk
    obtain ⟨⟨k', v⟩, hm, rfl⟩ := List.mem_map.mp hk
    rw [(d.get?_eq_some).mpr hm] at h
    cases h
  · intro h
    cases hv : d.get? k with
    | none => rfl
    | some v => exact absurd (List.mem_map.mpr ⟨_, (d.get?_eq_some).mp hv, rfl⟩) h

end Dict

/-! ## Steps -/

inductive OnMissing | error | default | null
  deriving DecidableEq, Repr

inductive OnMiss | error | default
  deriving DecidableEq, Repr

inductive Interpolation | none | linear
  deriving DecidableEq, Repr

inductive OnViolation | clamp | decline | error
  deriving DecidableEq, Repr

inductive ModelReferenceMode | exact | approximation
  deriving DecidableEq, Repr

/-- The rounding of an output step; the mode `down` is refused where the step is validated. -/
structure RoundSpec where
  mode : RoundingMode
  dp : ℕ
  deriving DecidableEq, Repr

/-- A `model_call` declares exactly one of `model_ref` and `peril_structure_ref`. -/
inductive ModelTarget
  | model (ref : ArtifactRef)
  | perilStructure (ref : ArtifactRef)
  deriving DecidableEq, Repr

def ModelTarget.ref : ModelTarget → ArtifactRef
  | model r => r
  | perilStructure r => r

/-- The seven step types with the fields each declares. -/
inductive StepKind
  | input (inputName : String) (onMissing : OnMissing)
  | lookup (referenceTableRef : ArtifactRef) (keyExpr : List String) (asAt : String)
      (onMiss : OnMiss)
  | table (rateTableRef : ArtifactRef) (keyExpr : List String) (onMiss : OnMiss)
      (interpolation : Interpolation)
  | expression (expr : String) (resultType : String)
  | modelCall (target : ModelTarget) (mode : ModelReferenceMode) (featureMap : Dict String)
      (resultType : Option String)
  | constraint (condition : String) (onViolation : OnViolation)
      (clampBounds : Option (Dict String)) (reasonCode : String)
  | output (outputName : String) (rounding : RoundSpec)
  deriving DecidableEq

/-- A step. `consumes` and `produces` are the lists `_as_list` gives. -/
structure RatingStep where
  stepId : String
  consumes : List String
  produces : List String
  kind : StepKind
  label : String := stepId
  note : Option String := none
  deriving DecidableEq

namespace RatingStep

variable (s : RatingStep)

def isInput : Bool := match s.kind with | .input .. => true | _ => false
def isOutput : Bool := match s.kind with | .output .. => true | _ => false
def isClamp : Bool := match s.kind with | .constraint _ .clamp _ _ => true | _ => false

/-- A step the engine evaluates: `input` and `output` steps are not nodes of the wire. -/
def isInterior : Bool := !s.isInput && !s.isOutput

def featureNames : List String := match s.kind with
  | .modelCall _ _ m _ => m.keys
  | _ => []

/-- Every authored text the engine evaluates (`EXPRESSION_FIELDS`). -/
def authored : List String := match s.kind with
  | .lookup _ key asAt _ => key ++ [asAt]
  | .table _ key _ _ => key
  | .expression e _ => [e]
  | .constraint c _ bounds _ => c :: (bounds.map Dict.values).getD []
  | _ => []

end RatingStep

/-! ## Inputs, outputs and mounts -/

inductive RatingInputType | int | decimal | string | date | bool | enum
  deriving DecidableEq, Repr

/-- A declared bound: an integer, or a decimal `± coefficient · 10 ^ exponent`. -/
inductive Bound
  | int (value : ℤ)
  | decimal (negative : Bool) (coefficient : ℕ) (exponent : ℤ)
  deriving DecidableEq, Repr

structure InputContractField where
  name : String
  type : RatingInputType
  nullable : Bool := false
  min : Option Bound := none
  max : Option Bound := none
  pattern : Option String := none
  domain : Option (List String) := none
  ordered : Bool := false
  description : Option String := none
  deriving DecidableEq, Repr

structure AlgorithmOutput where
  name : String
  type : String
  required : Bool := true
  deriving DecidableEq, Repr

inductive MountPurpose | midTermAdjustment | cancellation
  deriving DecidableEq, Repr

def isNameStart (c : Char) : Bool :=
  ('A' ≤ c && c ≤ 'Z') || ('a' ≤ c && c ≤ 'z')

def isNameChar (c : Char) : Bool :=
  isNameStart c || ('0' ≤ c && c ≤ '9') || c = '_'

/-- `__` occurs in the text. -/
def hasSeparator : List Char → Bool
  | '_' :: '_' :: _ => true
  | _ :: t => hasSeparator t
  | [] => false

/-- The `mount_point` grammar: `^[A-Za-z][A-Za-z0-9_]*$` without the separator `__`. -/
def isMountPoint (s : String) : Bool := match s.toList with
  | [] => false
  | c :: t => isNameStart c && t.all isNameChar && !hasSeparator (c :: t)

/-- A sub-graph mounted in a parent algorithm. `purposes` is absent, or a non-empty
duplicate-free list. -/
structure SubGraphRef where
  ref : ArtifactRef
  mountPoint : String
  inputs : Dict String
  outputs : Dict String
  purposes : Option (List MountPurpose) := none
  mountPoint_ok : isMountPoint mountPoint = true := by decide
  purposes_ok : ∀ p ∈ purposes, p ≠ [] ∧ p.Nodup := by decide
  deriving DecidableEq

/-- The field set of a Rating Algorithm, without its graph invariants. -/
structure RatingAlgorithmDraft where
  slug : String
  version : ℕ
  inputContract : List InputContractField
  outputs : List AlgorithmOutput
  steps : List RatingStep
  subGraphs : List SubGraphRef
  deriving DecidableEq

end GiPricing
