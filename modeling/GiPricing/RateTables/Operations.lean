import GiPricing.RateTables.Tables

/-! # Derived versions

The four bulk operations and manual edits. Each makes the cells of the next version, and the check
of the cells is run on the result.
-/

namespace GiPricing.RateTables

open Failure Decimal

/-! ## Values as texts -/

/-- `MAX_POSITIONAL_EXPONENT`. -/
def maxPositionalExponent : ℤ := 308

def fractionDigits (q : ℚ) : ℕ :=
  ((List.range (q.den.log2 + 1)).find? fun k => q.den ∣ 10 ^ k).getD 0

/-- `format(value, "f")` of a decimal without trailing zeros. -/
def fixedPoint (q : ℚ) : String :=
  let k := fractionDigits q
  let digits := (q.num.natAbs * 10 ^ k / q.den).repr.toList
  let padded := List.replicate (k + 1 - digits.length) '0' ++ digits
  let whole := padded.take (padded.length - k)
  let fraction := padded.drop (padded.length - k)
  String.ofList ((if q < 0 then ['-'] else []) ++ whole ++ if k = 0 then [] else '.' :: fraction)

example : fixedPoint (-5 / 4) = "-1.25" := by with_unfolding_all decide

/-- `_format_value` of a number; `Decimal.Finite.formatValue` is that of a decimal, which bounds the
exponent of a zero as well. -/
def formatValue (q : ℚ) : Except Refusal String := do
  ensure (q = 0 ∨ -maxPositionalExponent ≤ Int.log 10 |q| ∧ Int.log 10 |q| ≤ maxPositionalExponent)
    .cellUnparseable
  return if q = 0 then "0" else fixedPoint q

/-- `Decimal(row[value_name])`. A cell that is not a finite number is refused here; the code
carries it to the check of the result, which refuses it. -/
def cellValue (valueName : String) (row : CellRow) : Except Refusal ℚ := do
  let raw ← require (row.get? valueName) (.keyError valueName)
  require ((parse raw).bind Number.toRat?) (.notANumber raw)

/-! ## Bulk operations -/

/-- `KeyFilter`: the levels of some key columns. -/
abbrev KeyFilter := Dict (List String)

inductive BulkOperation
  | upliftTable (percentage : ℚ)
  | upliftByFilter (percentage : ℚ) (filter : KeyFilter)
  | floorAndCap (floor cap : ℚ)
  | rebaseToLevel (baseLevel : KeyFilter)

def BulkOperation.kind : BulkOperation → BulkKind
  | upliftTable _ => .upliftTable
  | upliftByFilter .. => .upliftByFilter
  | floorAndCap .. => .floorAndCap
  | rebaseToLevel _ => .rebaseToLevel

/-- The value types an operation has a meaning on. -/
def operationValueTypes : BulkKind → List ValueType
  | .upliftTable | .upliftByFilter => [.relativity, .moneyMinor, .percentage]
  | .floorAndCap => [.relativity, .moneyMinor, .percentage, .count]
  | .rebaseToLevel => [.relativity]

def checkFilterKey (v : RateTableVersion) (filter : KeyFilter) : Except Refusal PUnit :=
  let unknown := filter.keys.filter fun key => key ∉ v.keyNames
  ensure (unknown = []) (.filterUnknownKey (sortedSet unknown))

/-- `_row_matches`; a row without a filtered column raises. -/
def rowMatches (row : CellRow) (filter : KeyFilter) : Except Refusal Bool :=
  filter.entries.foldlM (fun all entry => do
    if all then
      let level ← require (row.get? entry.1) (.keyError entry.1)
      return level ∈ entry.2
    else return false) true

/-- A row with its value moved, as it is where nothing moves, and whether it moved. -/
def transformRow (valueName : String) (transform : ℚ → ℚ) (row : CellRow) :
    Except Refusal (CellRow × Bool) := do
  let old ← cellValue valueName row
  if transform old = old then return (row, false)
  else
    let text ← formatValue (transform old)
    return (row.insert valueName text, true)

def transformRows (valueName : String) (transform : ℚ → ℚ) (rows : List CellRow) :
    Except Refusal (List (CellRow × Bool)) := rows.mapM (transformRow valueName transform)

def prec : ℕ := 28

def upliftFactor (percentage : ℚ) : ℚ := roundSig prec (1 + percentage)

def uplift (percentage old : ℚ) : ℚ := roundSig prec (old * upliftFactor percentage)

/-- The row a table is rebased to. -/
def referenceRow (rows : List CellRow) (baseLevel : KeyFilter) : Except Refusal CellRow := do
  let matching ← rows.mapM fun row => do
    let m ← rowMatches row baseLevel
    return if m then [row] else []
  match matching.flatten with
  | [] => .error .rebaseNoMatch
  | [row] => .ok row
  | _ => .error (.rebaseAmbiguous matching.flatten.length)

/-- The cells of an operation's result. -/
def BulkOperation.rows (v : RateTableVersion) (rows : List CellRow) :
    BulkOperation → Except Refusal (List (CellRow × Bool))
  | upliftTable percentage => transformRows v.value.name (uplift percentage) rows
  | upliftByFilter percentage filter => do
    checkFilterKey v filter
    rows.mapM fun row => do
      let m ← rowMatches row filter
      if m then transformRow v.value.name (uplift percentage) row else return (row, false)
  | floorAndCap floor cap => do
    ensure (floor ≤ cap) (.floorAboveCap floor cap)
    transformRows v.value.name (fun old => max floor (min old cap)) rows
  | rebaseToLevel baseLevel => do
    checkFilterKey v baseLevel
    let row ← referenceRow rows baseLevel
    let reference ← cellValue v.value.name row
    ensure (reference ≠ 0) .rebaseZeroReference
    rows.mapM fun row => do
      let old ← cellValue v.value.name row
      let text ← formatValue (roundSig prec (old / reference))
      return (row.insert v.value.name text, roundSig prec (old / reference) ≠ 1)

/-- `_validate_result`. -/
def validateResult (engine : Engine) (v : RateTableVersion) (rows : List CellRow) :
    Except Refusal PUnit := do
  let domains ← keyDomainsOf rows v.keys
  let issues ← validateRateTable engine rows v.keys v.value domains v.defaultRow
  refuseFirst issues

/-- `_new_version`: a copy with another version number, cells, note and creation. -/
def RateTableVersion.newVersion (v : RateTableVersion) (rows : List CellRow) (note : String)
    (creation : Creation) : RateTableVersion :=
  { v with version := v.version + 1, cells := .rows rows, changeNote := note, createdBy := creation }

/-- `uplift_table`, `uplift_by_filter`, `floor_and_cap` and `rebase_to_level`. -/
def applyBulk (engine : Engine) (v : RateTableVersion) (op : BulkOperation) (note : String) :
    Except Refusal RateTableVersion := do
  ensure (v.value.type ∈ operationValueTypes op.kind) (.notApplicable op.kind v.value.type)
  let rows ← v.rowsOf
  let moved ← op.rows v rows
  validateResult engine v (moved.map Prod.fst)
  return v.newVersion (moved.map Prod.fst) note
    (.operation op.kind v.version (moved.countP fun m => m.2 = true))

/-! ## Manual edits -/

/-- `position`: the place of a key in the base, the last one of a key. -/
def positionOf (base : List (Option KeyTuple)) (key : KeyTuple) : Option ℕ :=
  ((base.zipIdx.filter fun entry => entry.1 = some key).getLast?).map Prod.snd

/-- Where an edit goes and its value, or the code of what is wrong with it. -/
def editTarget (engine : Engine) (v : RateTableVersion) (base : List (Option KeyTuple))
    (replaced : List (ℕ × String)) (row : CellRow) : Except String (ℕ × String) := do
  ensure (row.keys.toFinset = (v.value.name :: v.keyNames).toFinset) "EDIT_COLUMNS"
  let key ← require (keyOf v.keyNames row) "EDIT_COLUMNS"
  let at_ ← require (positionOf base key) "UNKNOWN_KEY"
  ensure (at_ ∉ replaced.map Prod.fst) "DUPLICATE_KEY"
  match valueIssue engine v.value key row with
  | some issue => .error issue.code
  | none => (require (row.get? v.value.name) "EDIT_COLUMNS").map fun text => (at_, text)

/-- The edits in turn: the values they set by place, and the issues by index. -/
def collectEdits (engine : Engine) (v : RateTableVersion) (base : List (Option KeyTuple)) :
    List (ℕ × CellRow) → List (ℕ × String) → List (ℕ × String) →
      List (ℕ × String) × List (ℕ × String)
  | [], replaced, issues => (replaced, issues)
  | (index, row) :: edits, replaced, issues => match editTarget engine v base replaced row with
    | .ok edit => collectEdits engine v base edits (replaced ++ [edit]) issues
    | .error code => collectEdits engine v base edits replaced (issues ++ [(index, code)])

/-- A row with the value set for its place. -/
def replaceAt (valueName : String) (replaced : List (ℕ × String)) (entry : CellRow × ℕ) : CellRow :=
  match replaced.lookup entry.2 with
  | some text => entry.1.insert valueName text
  | none => entry.1

/-- `row[name]` of each key column of a row of the base. -/
def baseKey (v : RateTableVersion) (row : CellRow) : Except Refusal KeyTuple :=
  v.keyNames.mapM fun name => require (row.get? name) (.keyError name)

/-- `apply_cell_edits`: the cells with each edit's value, or every issue and no cells. -/
def applyCellEdits (engine : Engine) (v : RateTableVersion) (edits : List CellRow) :
    Except Refusal (List CellRow) := do
  let rows ← v.rowsOf
  let _ ← rows.mapM (baseKey v)
  let collected := collectEdits engine v (rows.map (keyOf v.keyNames)) (edits.zipIdx.map Prod.swap)
    [] []
  ensure (collected.2 = []) (.editIssues collected.2)
  return rows.zipIdx.map (replaceAt v.value.name collected.1)

/-- `_edit_derived`. -/
def editDerived (engine : Engine) (v : RateTableVersion) (edits : List CellRow) (note : String) :
    Except Refusal RateTableVersion := do
  let rows ← applyCellEdits engine v edits
  return ⟨v.slug, v.version + 1, v.rateable, v.keys, v.value, v.defaultRow, .rows rows, note,
    v.seededFrom, .edit v.version edits.length⟩

end GiPricing.RateTables
