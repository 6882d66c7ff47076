import GiPricing.Failure.Except
import GiPricing.Rating.Algorithm
import Mathlib.Data.List.Dedup
import Mathlib.Data.List.Sort

/-! # The parts of a split

A split is computed anew by each job that derives one part of a dataset version, for each table of
the version apart.
-/

namespace GiPricing.Data

open Failure

variable {V D : Type}

/-- A table: its columns with their types, and a value at each column for each row. -/
structure Frame (V D : Type) where
  columns : List (String × D)
  rows : List (String → V)

/-- What the split takes from the language and its libraries. -/
structure Primitives (V D : Type) where
  /-- A value as text. -/
  str : V → String
  /-- Equality of two key values. -/
  same : V → V → Bool
  /-- The cutoff read as a value of the column's type. -/
  cast : D → String → Option V
  /-- A value that is there and less than the other. -/
  before : V → V → Bool
  /-- The hash of a seed and a text, on the unit interval. -/
  hash : ℤ → String → ℚ
  /-- The draws of a seeded generator asked for a number of them. A seed is one that the generator
  takes: it raises at a negative one. -/
  draw : ℤ → ℕ → ℕ → ℚ
  /-- The rounding of the floating-point operations. -/
  round : ℚ → ℚ

structure SplitParams where
  method : Option String
  seed : Option ℤ
  fractions : Option (Dict ℚ)
  key_column : Option String
  time_column : Option String
  cutoff : Option String

inductive SplitError
  | unknownMethod (method : String)
  | temporalNeeds
  | noTimeColumn (column : String)
  | unreadableCutoff (cutoff : String)
  | fractionsSumToZero
  | negativeFraction
  | fractionsSum (total : ℚ)
  | groupedNeedsKey
  | noKeyColumn (column : String)

inductive Refusal
  | seedRequired
  | partRequired
  | split (error : SplitError)
  | noSuchPart (part : String) (parts : List String)

variable (p : Primitives V D) (params : SplitParams)

theorem defaultShares_nodup (a b : ℚ) : ([("train", a), ("test", b)].map Prod.fst).Nodup := by
  simp

def defaultShares : Dict ℚ := ⟨[("train", p.round (4 / 5)), ("test", p.round (1 / 5))],
  defaultShares_nodup _ _⟩

/-- `dict(fractions or {...})`: no fractions are the default ones. -/
def shares : Dict ℚ :=
  match params.fractions with
  | some d => if d.entries = [] then defaultShares p else d
  | none => defaultShares p

def method : String := params.method.getD "random"

def sortedNames (names : List String) : List String := names.insertionSort (· ≤ ·)

/-- The upper ends of the parts' intervals, each the rounded sum of the shares so far. -/
def edgesFrom (share : String → ℚ) (total : ℚ) : ℚ → List String → List (String × ℚ)
  | _, [] => []
  | running, name :: names =>
    let upper := p.round (running + p.round (share name / total))
    (name, upper) :: edgesFrom share total upper names

/-- One addition of `sum`: the running sum and what its roundings have lost so far. -/
def addCompensated (state : ℚ × ℚ) (v : ℚ) : ℚ × ℚ :=
  let sum := p.round (state.1 + v)
  let lost := if |v| ≤ |state.1| then p.round (p.round (state.1 - sum) + v)
    else p.round (p.round (v - sum) + state.1)
  (sum, p.round (state.2 + lost))

/-- `sum` of floats: what the roundings lose is summed apart and added at the end. -/
def sumFloats : List ℚ → ℚ
  | [] => 0
  | v :: vs =>
    let state := vs.foldl (addCompensated p) (v, 0)
    if state.2 = 0 then state.1 else p.round (state.1 + state.2)

def total (fractions : Dict ℚ) : ℚ := sumFloats p fractions.values

def cumulative (fractions : Dict ℚ) : Except SplitError (List (String × ℚ)) := do
  ensure (0 < total p fractions) .fractionsSumToZero
  ensure (∀ v ∈ fractions.values, 0 ≤ v) .negativeFraction
  ensure (p.round (999 / 1000) ≤ total p fractions ∧ total p fractions ≤ p.round (1001 / 1000))
    (.fractionsSum (total p fractions))
  return edgesFrom p (fun name => (fractions.get? name).getD 0) (total p fractions) 0
    (sortedNames fractions.keys)

/-- The last interval a number lies in, from the lower end on. -/
def pick (u : ℚ) : ℚ → List (String × ℚ) → Option String → Option String
  | _, [], found => found
  | lower, (name, upper) :: edges, found =>
    pick u upper edges (if lower ≤ u ∧ u < upper then some name else found)

def partAt (edges : List (String × ℚ)) (u : ℚ) : String :=
  (pick u 0 edges none).getD ((edges.getLast?.map Prod.fst).getD "")

def keyPart (edges : List (String × ℚ)) (seed : ℤ) (value : V) : String :=
  partAt edges (p.hash seed (p.str value))

def assignParts (frame : Frame V D) : Except SplitError (List String) :=
  if method params = "temporal" then do
    let time_column ← require (params.time_column.filter (· ≠ "")) .temporalNeeds
    let cutoff ← require params.cutoff .temporalNeeds
    let dtype ← require (frame.columns.lookup time_column) (.noTimeColumn time_column)
    let boundary ← require (p.cast dtype cutoff) (.unreadableCutoff cutoff)
    return frame.rows.map fun row => if p.before (row time_column) boundary then "train" else "test"
  else if method params = "grouped_by_key" then do
    let edges ← cumulative p (shares p params)
    let key_column ← require (params.key_column.filter (· ≠ "")) .groupedNeedsKey
    let _ ← require (frame.columns.lookup key_column) (.noKeyColumn key_column)
    return frame.rows.map fun row => keyPart p edges (params.seed.getD 0) (row key_column)
  else if method params = "random" then do
    let edges ← cumulative p (shares p params)
    return (List.range frame.rows.length).map fun i =>
      partAt edges (p.draw (params.seed.getD 0) frame.rows.length i)
  else .error (.unknownMethod (method params))

/-- The rows of one part, in a frame tagged with the parts and stripped of the tag again. -/
def partFrame (frame : Frame V D) (assignment : List String) (part : String) : Frame V D where
  columns := frame.columns.filter fun column => column.1 ≠ "__part__"
  rows := ((frame.rows.zip assignment).filter fun row => row.2 = part).map Prod.fst

def partition (frame : Frame V D) : Except SplitError (List (String × Frame V D)) := do
  let assignment ← assignParts p params frame
  return (sortedNames assignment.dedup).map fun name => (name, partFrame frame assignment name)

def materialiseSplit (part : String) : List (Frame V D) → Except Refusal (List (Frame V D))
  | [] => .ok []
  | frame :: tables => do
    let parts ← (partition p params frame).mapError .split
    let selected ← require (parts.lookup part) (.noSuchPart part (parts.map Prod.fst))
    let written ← materialiseSplit part tables
    return selected :: written

/-- One `dataset.derive` job: a split needs its seed, and a part to derive. -/
def derive (tables : List (Frame V D)) (part : String) : Except Refusal (List (Frame V D)) := do
  ensure (params.seed.isSome = true) .seedRequired
  ensure (part ≠ "") .partRequired
  materialiseSplit p params part tables

/-- The parent version, and what the jobs over it came to. -/
structure Store (V D : Type) where
  tables : List (Frame V D)
  derived : List (String × Except Refusal (List (Frame V D)))

def Store.run (store : Store V D) (part : String) : Store V D :=
  { store with derived := store.derived ++ [(part, derive p params store.tables part)] }

def declared : List String :=
  if method params = "temporal" then ["train", "test"] else sortedNames (shares p params).keys

end GiPricing.Data
