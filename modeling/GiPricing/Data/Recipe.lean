import GiPricing.Data.Splits
import GiPricing.Rating.Inline

/-! # Preparation recipes

An ordered list of declared steps over the tables of a source. Each table carries the number of the
source row in a working column. A step that parses quarantines the rows of which it nulls a cell.
-/

namespace GiPricing.Data.Recipe

open Failure

variable {V D : Type}

def sourceRow : String := "_source_row"

/-- The parameters of a step. Each kind that this build does not implement, declared or not, is its
kind alone. -/
inductive Operation (V : Type)
  | rename (columns : Dict String)
  | cast (columns : Dict String)
  | parseDate (column format : String)
  | trimWhitespace (columns : List String)
  | normaliseCase (columns : List String) (upper : Bool)
  | mapValues (column : String) (mapping : List (V × V))
  | fillNull (column : String) (value : V)
  | deriveExpression (column expression : String)
  | filterRows (expression : String)
  | deduplicate (columns : List String)
  | pseudonymise (column key : String)
  | other (kind : String)

namespace Operation

def kind : Operation V → String
  | rename _ => "rename"
  | cast _ => "cast"
  | parseDate .. => "parse_date"
  | trimWhitespace _ => "trim_whitespace"
  | normaliseCase .. => "normalise_case"
  | mapValues .. => "map_values"
  | fillNull .. => "fill_null"
  | deriveExpression .. => "derive_expression"
  | filterRows _ => "filter_rows"
  | deduplicate _ => "deduplicate"
  | pseudonymise .. => "pseudonymise"
  | other kind => kind

end Operation

def stepTypes : List String :=
  ["rename", "cast", "parse_date", "trim_whitespace", "normalise_case", "map_values", "fill_null",
    "derive_expression", "filter_rows", "deduplicate", "join_table", "derive_exposure",
    "explode_period", "attach_claims", "pseudonymise"]

structure Step (V : Type) where
  operation : Operation V
  table : Option String

/-- The new value of a cell, from the row that it stands in. -/
inductive Elementwise (V : Type)
  | cast (dtype : String)
  | strptime (format : String)
  | stripChars
  | toUppercase
  | toLowercase
  | replace (mapping : List (V × V))
  | fillNull (value : V)
  | expression (text : String)
  | token (key : String)

/-- What a recipe takes from the frame library and the language. -/
structure Library (V D : Type) where
  isNull : V → Bool
  /-- A row number as a cell of the working column. -/
  index : ℕ → V
  index_injective : Function.Injective index
  indexType : D
  /-- A cell cast to text. -/
  text : V → Option String
  /-- The written form of a text in a reason. -/
  repr : String → String
  compute : Elementwise V → String → (String → V) → V
  typeOf : Elementwise V → D
  /-- The rows that a filter keeps. -/
  holds : String → (String → V) → Bool
  /-- The columns that a name given to a step on several columns selects: a name in the library's
  pattern form selects every column that it matches. -/
  selects : String → String → Bool
  /-- The library raises on none of the step's columns, types and texts. -/
  accepts : Operation V → Frame V D → Bool

inductive RecipeError
  | notAStepType (index : ℕ) (kind : String)
  | noSuchTable (index : ℕ) (table : String)
  | hasSourceRow (table : String)
  | notACastTarget (dtype : String)
  | notImplemented (kind : String)
  | pseudonymiseAbsent (column : String)
  | pseudonymiseNeedsKey
  /-- The library's own error, or the language's. -/
  | raised
  deriving DecidableEq

def names (frame : Frame V D) : List String := frame.columns.map Prod.fst

/-! ## The steps -/

section Steps

variable (p : Library V D) (frame : Frame V D)

/-- The row with each assigned column computed from the row as it was. -/
def assign (exprs : List (String × Elementwise V)) (row : String → V) : String → V := fun c =>
  match exprs.find? fun e => e.1 = c with
  | some e => p.compute e.2 c row
  | none => row c

def withColumns (exprs : List (String × Elementwise V)) : Frame V D where
  columns := (frame.columns.map fun c =>
      (c.1, ((exprs.find? fun e => e.1 = c.1).map fun e => p.typeOf e.2).getD c.2)) ++
    (exprs.filter fun e => e.1 ∉ names frame).map fun e => (e.1, p.typeOf e.2)
  rows := frame.rows.map (assign p exprs)

def each (selected : List String) (e : Elementwise V) : List (String × Elementwise V) :=
  ((names frame).filter fun c => selected.any fun name => p.selects name c).map fun c => (c, e)

def renamed (columns : Dict String) (c : String) : String := (columns.get? c).getD c

def rename (columns : Dict String) : Frame V D where
  columns := frame.columns.map fun c => (renamed columns c.1, c.2)
  rows := frame.rows.map fun row c =>
    match columns.entries.find? fun e => e.2 = c with
    | some e => row e.1
    | none => row c

def castTargets : List String :=
  ["int", "int64", "int32", "float", "float64", "string", "str", "bool", "date"]

/-- The first row of each value of a key, in order. -/
def unique [DecidableEq V] (key : (String → V) → List V) :
    List (List V) → List (String → V) → List (String → V)
  | _, [] => []
  | seen, row :: rows =>
    if key row ∈ seen then unique key seen rows else row :: unique key (key row :: seen) rows

def subset (columns : List String) : List String :=
  if columns = [] then (names frame).filter (· ≠ sourceRow) else columns

def applyStep [DecidableEq V] (op : Operation V) : Except RecipeError (Frame V D) :=
  let accepted (after : Frame V D) : Except RecipeError (Frame V D) := do
    ensure (p.accepts op frame) .raised
    return after
  match op with
  | .rename columns => accepted (rename frame columns)
  | .cast columns => do
    columns.values.forM fun dtype => ensure (dtype ∈ castTargets) (.notACastTarget dtype)
    accepted (withColumns p frame (columns.entries.flatMap fun e => each p frame [e.1] (.cast e.2)))
  | .parseDate column format => accepted (withColumns p frame [(column, .strptime format)])
  | .trimWhitespace columns => accepted (withColumns p frame (each p frame columns .stripChars))
  | .normaliseCase columns upper => accepted (withColumns p frame
      (each p frame columns (if upper then .toUppercase else .toLowercase)))
  | .mapValues column mapping => accepted (withColumns p frame [(column, .replace mapping)])
  | .fillNull column value => accepted (withColumns p frame [(column, .fillNull value)])
  | .deriveExpression column expression =>
    accepted (withColumns p frame [(column, .expression expression)])
  | .filterRows expression => accepted { frame with rows := frame.rows.filter (p.holds expression) }
  | .deduplicate columns => accepted { frame with
      rows := unique (fun row => (subset frame columns).map row) [] frame.rows }
  | .pseudonymise column key => do
    ensure (column ∈ names frame) (.pseudonymiseAbsent column)
    ensure (key ≠ "") .pseudonymiseNeedsKey
    accepted (withColumns p frame [(column, .token key)])
  | .other kind => .error (.notImplemented kind)

end Steps

/-! ## The quarantine -/

/-- A failed row: its place in the source, and the first of its failing columns with the reason. -/
structure Failed (V : Type) where
  source : V
  reason : Option String
  column : String
  step : String

/-- A row of the quarantine: the texts of the source's columns, and why it is there. -/
structure Rejected where
  cells : List (String × Option String)
  rejectReason : Option String
  rejectColumn : String
  rejectStep : String
  deriving DecidableEq

def rejectColumns : List String := ["_reject_reason", "_reject_column", "_reject_step"]

section Quarantine

variable (p : Library V D)

/-- The columns that a parsing step names, each with its target. -/
def targets : Operation V → List (String × String)
  | .cast columns => columns.entries
  | .parseDate column format => [(column, format)]
  | _ => []

/-- The first named column that was not null before the step and is null after it. -/
def failing (op : Operation V) (before after : String → V) : Option (String × String) :=
  (targets op).find? fun t => !p.isNull (before t.1) && p.isNull (after t.1)

def reason (kind : String) (target : String × String) (row : String → V) : Option String :=
  (p.text (row target.1)).map fun text =>
    target.1 ++ ": " ++ kind ++ " could not parse " ++ p.repr text ++ " as " ++ target.2

def coercionFailures (op : Operation V) (before after : Frame V D) :
    Except RecipeError (List (Failed V)) := do
  ensure (∀ t ∈ targets op, t.1 ∈ names before ∧ t.1 ∈ names after) .raised
  return (before.rows.zip after.rows).filterMap fun rows =>
    (failing p op rows.1 rows.2).map fun target => {
      source := rows.1 sourceRow
      reason := reason p op.kind target rows.1
      column := target.1
      step := op.kind
    }

/-- One failure for each source row. -/
def firstFailures [DecidableEq V] : List V → List (Failed V) → List (Failed V)
  | _, [] => []
  | seen, f :: failed =>
    if f.source ∈ seen then firstFailures seen failed
    else f :: firstFailures (f.source :: seen) failed

def joinedName (c : String) : String := if c ∈ rejectColumns then c ++ "_right" else c

def inputText (source : Frame V D) (row : Option (String → V)) : List (String × Option String) :=
  (names source).map fun c => (joinedName c, row.bind fun row => p.text (row c))

def quarantineFrame [DecidableEq V] (source : Frame V D) (failed : List (Failed V)) :
    List Rejected :=
  (firstFailures [] failed).map fun f => {
    cells := inputText p source
      ((source.rows.zipIdx.find? fun row => p.index row.2 = f.source).map Prod.fst)
    rejectReason := f.reason
    rejectColumn := f.column
    rejectStep := f.step
  }

end Quarantine

/-! ## The run -/

structure StepStats where
  step : String
  table : String
  rowsBefore : ℕ
  rowsAfter : ℕ
  rowsRejected : ℕ
  rowsRemoved : ℤ
  rowsAdded : ℤ
  deriving DecidableEq

structure State (V D : Type) where
  working : Dict (Frame V D)
  rejects : List (List Rejected)
  stats : List StepStats

structure PreparationResult (V D : Type) where
  tables : Dict (Frame V D)
  rejected : Option (List Rejected)
  stats : List StepStats

section Run

variable [DecidableEq V] (p : Library V D) (sources : Dict (Frame V D))

def withSourceRow (frame : Frame V D) : Frame V D where
  columns := (sourceRow, p.indexType) :: frame.columns
  rows := frame.rows.zipIdx.map fun row c => if c = sourceRow then p.index row.2 else row.1 c

def drop (frame : Frame V D) : Frame V D :=
  { frame with columns := frame.columns.filter (·.1 ≠ sourceRow) }

def stepStats (kind table : String) (before after rejected quarantined : ℕ) : StepStats :=
  let delta : ℤ := after - (before - quarantined)
  {
    step := kind
    table
    rowsBefore := before
    rowsAfter := after
    rowsRejected := rejected
    rowsRemoved := max (-delta) 0 + (quarantined - rejected)
    rowsAdded := max delta 0
  }

def kept (after : Frame V D) (failed : List (Failed V)) : Frame V D :=
  { after with rows := after.rows.filter fun row => row sourceRow ∉ failed.map Failed.source }

/-- What a step leaves of a table, with the rows that it quarantines. -/
def record (table : String) (source before after : Frame V D) (kind : String)
    (failed : List (Failed V)) (s : State V D) : State V D where
  working := s.working.insert table (kept after failed)
  rejects := if failed = [] then s.rejects else s.rejects ++ [quarantineFrame p source failed]
  stats := s.stats ++ [stepStats kind table before.rows.length (kept after failed).rows.length
    (firstFailures [] failed).length (after.rows.length - (kept after failed).rows.length)]

def runStep (index : ℕ) (step : Step V) (s : State V D) : Except RecipeError (State V D) := do
  let op := step.operation
  ensure (op.kind ∈ stepTypes) (.notAStepType index op.kind)
  let first ← require s.working.keys.head? .raised
  let table := step.table.getD first
  let before ← require (s.working.get? table) (.noSuchTable index table)
  let after ← applyStep p before op
  let failed ← coercionFailures p op before after
  let source ← require (sources.get? table) .raised
  return record p table source before after op.kind failed s

def runSteps : ℕ → List (Step V) → State V D → Except RecipeError (State V D)
  | _, [], s => .ok s
  | index, step :: steps, s => do
    let s ← runStep p sources index step s
    runSteps (index + 1) steps s

def applyRecipe (recipe : List (Step V)) : Except RecipeError (PreparationResult V D) := do
  sources.entries.forM fun e => ensure (sourceRow ∉ names e.2) (.hasSourceRow e.1)
  let s ← runSteps p sources 0 recipe ⟨sources.mapValues (withSourceRow p), [], []⟩
  s.working.values.forM fun frame => ensure (sourceRow ∈ names frame) .raised
  return {
    tables := s.working.mapValues drop
    rejected := if s.rejects = [] then none else some s.rejects.flatten
    stats := s.stats
  }

end Run

end GiPricing.Data.Recipe
