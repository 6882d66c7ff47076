import GiPricing.RateTables.Operations
import GiPricing.Text.Csv

/-! # Export and import

A version as a CSV text, the strict import of a file against a version, and the diff it previews.
-/

namespace GiPricing.RateTables

open Failure Decimal

/-- What the XLSX reader raises: one of the two errors of a file that is none, which are caught, or an
error of another class. -/
inductive XlsxError
  | unreadable
  | raised (exception : String)
  deriving DecidableEq

/-- What the export and the import call of others: the engine, the date parser, whether the CSV
writer quotes a carriage return, the XLSX reader and the digest. -/
structure Host where
  engine : Engine
  fromisoformat : String → Bool
  quotesReturn : Bool
  parseXlsx : ByteArray → Except XlsxError (List (List String))
  sha256 : ByteArray → String

/-! ## Export -/

def RateTableVersion.header (v : RateTableVersion) : List String := v.keyNames ++ [v.value.name]

/-- `row[column]` for each column. -/
def cellsOf (header : List String) (row : CellRow) : Except Refusal (List String) :=
  header.mapM fun column => require (row.get? column) (.keyError column)

def csvText (host : Host) (lines : List (List String)) : String :=
  String.ofList (Csv.write host.quotesReturn (lines.map fun line => line.map String.toList))

def exportToCsv (host : Host) (v : RateTableVersion) : Except Refusal ByteArray := do
  let rows ← v.rowsOf
  let lines ← rows.mapM (cellsOf v.header)
  return (csvText host (v.header :: lines)).toUTF8

/-! ## Reading a file -/

def headerAndRows (filename : String) : List (List String) → Except Refusal (List String × List (List String))
  | [] => .error (.parseError filename)
  | header :: rows => .ok (header, rows)

def parseCsv (content : ByteArray) (filename : String) :
    Except Refusal (List String × List (List String)) := do
  let text ← require (String.fromUTF8? content) (.parseError filename)
  let lines ← require (Csv.readRows text.toList) .csvError
  headerAndRows filename (lines.map fun line => line.map String.ofList)

def parseXlsx (host : Host) (content : ByteArray) (filename : String) :
    Except Refusal (List String × List (List String)) := do
  let lines ← (host.parseXlsx content).mapError fun
    | .unreadable => .parseError filename
    | .raised exception => .xlsxError exception
  headerAndRows filename lines

/-- `str.strip`. -/
def strip (s : String) : List Char := ((s.toList.dropWhile isSpace).reverse.dropWhile isSpace).reverse

/-- `int(raw)` does not raise: an optional sign, and digits with single underscores between them. -/
def parsesInt (raw : String) : Bool :=
  let groups := (takeSign (strip raw)).2.splitOn '_'
  groups.all (fun g => !g.isEmpty && g.all isDigit) && groups.flatten.length ≤ 4300

def valueMatchesKeyType (host : Host) (raw : String) : KeyType → Bool
  | .int => parsesInt raw
  | .date => host.fromisoformat raw
  | .bool => ["true", "false"].contains (String.ofList ((strip raw).map Char.toLower))
  | .string => true

def checkImportTypes (host : Host) (v : RateTableVersion) (fileRows : List CellRow) :
    Except Refusal PUnit := do
  let _ ← v.keys.mapM fun key =>
    if key.type = .string then .ok []
    else fileRows.mapM fun row => do
      let raw ← require (row.get? key.name) (.keyError key.name)
      ensure (valueMatchesKeyType host raw key.type = true) (.typeMismatch raw key.name)
  return ⟨⟩

/-- `dict(zip(header, row, strict=True))`: the last column of a name is the one that stays. -/
def dictZip (header row : List String) : CellRow :=
  (header.zip row).foldl (fun d entry => d.insert entry.1 entry.2) Dict.empty

def isCsv (filename : String) : Bool := ".csv".toList.isSuffixOf filename.toList

structure ImportVerdict where
  filename : String
  contentSha256 : String
  roundTrip : String
  appliedTo : ℕ
  deriving DecidableEq

structure ImportResult where
  cells : List CellRow
  createdByImport : ImportVerdict

def checkedImport (host : Host) (v : RateTableVersion) (content : ByteArray) (filename : String) :
    Except Refusal ImportResult := do
  let rows ← v.rowsOf
  let (header, data) ←
    if isCsv filename then parseCsv content filename else parseXlsx host content filename
  ensure (header = v.header) (.keyMismatch header v.header)
  ensure (∀ row ∈ data, row.length = header.length) (.parseError filename)
  let fileRows := data.map (dictZip header)
  checkImportTypes host v fileRows
  let domains ← keyDomainsOf rows v.keys
  let issues ← validateRateTable host.engine fileRows v.keys v.value domains v.defaultRow
  refuseFirst issues
  return ⟨fileRows, filename, host.sha256 content, "passed", v.version⟩

/-- `import_confirmed`. -/
def importConfirmed (host : Host) (v : RateTableVersion) (content : ByteArray) (filename : String) :
    Except Refusal ImportResult := checkedImport host v content filename

/-! ## The diff -/

inductive CellChange
  | added
  | removed
  | changed
  deriving DecidableEq

structure RateTableDiffCell where
  key : KeyTuple
  change : CellChange
  baselineValue : Option ℚ
  currentValue : Option ℚ
  absChange : Option ℚ
  relChangePct : Option ℚ
  deriving DecidableEq

structure RateTableDiff where
  changedCells : ℕ
  maxAbsChangePct : Option ℚ
  deriving DecidableEq

/-- `_index_rows`: the key and the value of each row. -/
def indexRows (keyNames : List String) (valueName : String) (rows : List CellRow) :
    Except Refusal (List (KeyTuple × ℚ)) := rows.mapM fun row => do
  let key ← rowKey keyNames row
  let value ← cellValue valueName row
  return (key, value)

def indexGet (index : List (KeyTuple × ℚ)) (key : KeyTuple) : Option ℚ := index.reverse.lookup key

/-- A changed cell, without weights. -/
def diffCell (before after : List (KeyTuple × ℚ)) (key : KeyTuple) : RateTableDiffCell :=
  match indexGet before key, indexGet after key with
  | some old, some new =>
    let change := roundSig prec (new - old)
    ⟨key, .changed, some old, some new, some change,
      if old = 0 then none else some (roundSig prec (roundSig prec (change / old) * 100))⟩
  | none, new => ⟨key, .added, none, new, none, none⟩
  | old, none => ⟨key, .removed, old, none, none, none⟩

/-- `_diff_cells`: the keys of either side whose values differ, in key order. -/
def diffCells (baseline current : List CellRow) (v : RateTableVersion) :
    Except Refusal (List RateTableDiffCell) := do
  let before ← indexRows v.keyNames v.value.name baseline
  let after ← indexRows v.keyNames v.value.name current
  let keys := ((before ++ after).map Prod.fst).dedup.filter fun key =>
    indexGet before key ≠ indexGet after key
  return (keys.mergeSort fun a b => decide (a ≤ b)).map (diffCell before after)

/-- `diff_summary` of cells without weights. -/
def diffSummary (cells : List RateTableDiffCell) : RateTableDiff :=
  ⟨cells.length, ((cells.filterMap RateTableDiffCell.relChangePct).map fun pct => |pct|).max?⟩

/-- The exponents of the standard context; a result above them is an overflow. -/
def maxExponent : ℤ := 999999

/-- The changes of a cell are within the standard context. -/
def RateTableDiffCell.InRange (c : RateTableDiffCell) : Prop :=
  Int.log 10 |c.absChange.getD 0| ≤ maxExponent ∧ Int.log 10 |c.relChangePct.getD 0| ≤ maxExponent

instance (c : RateTableDiffCell) : Decidable c.InRange := inferInstanceAs (Decidable (_ ∧ _))

structure ImportPreview where
  diff : RateTableDiff
  createdByImport : ImportVerdict

/-- `import_from_csv` and `import_from_xlsx`: the name of the file, not the function, says how it is
read. -/
def importFromCsv (host : Host) (v : RateTableVersion) (content : ByteArray) (filename : String) :
    Except Refusal ImportPreview := do
  let result ← checkedImport host v content filename
  let rows ← v.rowsOf
  let cells ← diffCells rows result.cells v
  ensure (∀ c ∈ cells, c.InRange) .decimalOverflow
  return ⟨diffSummary cells, result.createdByImport⟩

end GiPricing.RateTables
