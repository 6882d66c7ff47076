import GiPricing.RateTables.Import
import GiPricing.Transition.Run

/-! # A stored rate table

The versions of a table, and the four kinds of write that add one: a seed from a model, a bulk
operation, a manual edit and a confirmed import. A refused write leaves the table as it is.
-/

namespace GiPricing.RateTables

open Failure

/-! ## Seeding -/

structure Factor where
  slug : String
  version : ℕ
  control : Bool
  deriving DecidableEq

/-- A level of a factor, its relativity as a decimal text in fixed point. -/
structure RelativityLevel where
  level : String
  relativity : Option String
  deriving DecidableEq

/-- A model: its relativities by factor, where its fit has them. -/
structure Model where
  slug : String
  version : ℕ
  approved : Bool
  relativities : Option (Dict (List RelativityLevel))

structure SeedRequest where
  model : Model
  factor : String
  factors : List Factor
  changeNote : String
  seededAt : ℕ
  rateable : Bool

/-- `[a-z0-9][a-z0-9_-]{1,62}`. -/
def slugIsAdmitted (slug : String) : Bool :=
  let alnum (c : Char) : Bool := c.isLower || c.isDigit
  match slug.toList with
  | [] => false
  | c :: cs => alnum c && cs.all (fun d => alnum d || d = '_' || d = '-') &&
      decide (1 ≤ cs.length ∧ cs.length ≤ 62)

def seedValueName : String := "relativity"

/-- `extract_relativity_table` of one factor: a level without a relativity is skipped. -/
def extractRelativityTable (factor : String) (levels : List RelativityLevel) : List CellRow :=
  levels.filterMap fun l => l.relativity.map fun text =>
    (Dict.empty.insert factor l.level).insert seedValueName text

def seedFromModel (engine : Engine) (slug : String) (version : ℕ) (r : SeedRequest) :
    Except Refusal RateTableVersion := do
  ensure (r.model.approved = true) (.seedRefused "PIN_NOT_APPROVED")
  let relativities ← require r.model.relativities (.seedRefused "no GLM relativities")
  let entry ← require (relativities.get? r.factor) (.seedRefused "names no relativity entry")
  let bound ← match r.factors.filter fun f => f.slug = r.factor with
    | [f] => .ok f
    | [] => .error (.seedRefused "no pinned Factor")
    | _ => .error (.seedRefused "binds to exactly one")
  ensure (bound.control = false) (.seedRefused "CONTROL_FACTOR_IN_RATEABLE_PATH")
  ensure (slugIsAdmitted bound.slug = true) (.seedRefused "outside the factor slug grammar")
  let cells := extractRelativityTable r.factor entry
  ensure (cells ≠ []) (.seedRefused "NO_RELATIVITIES")
  let keys := [⟨r.factor, .string, none, some ⟨"factor", bound.slug, bound.version⟩⟩]
  let value := ⟨seedValueName, .relativity, "factor", none, none⟩
  let issues ← validateRateTable engine cells keys value
    (fun _ => (entry.filter fun l => l.relativity.isSome).map RelativityLevel.level) none
  refuseFirst issues
  return ⟨slug, version, r.rateable, keys, value, none, .rows cells, r.changeNote,
    some ⟨⟨"model", r.model.slug, r.model.version⟩, r.seededAt⟩, .seed⟩

/-! ## The table -/

/-- A table: a version stored as a blob is kept with the cells that are read back from it. -/
structure Table where
  slug : String
  currentVersion : ℕ
  versions : List RateTableVersion
  deriving DecidableEq

def Table.loadVersion (t : Table) (version : ℕ) : Except Refusal RateTableVersion :=
  require (t.versions.find? fun v => v.version = version) .miss

/-- `_key_takes_the_seed`. -/
def keyTakesTheSeed (key : RateTableKey) (factor : String) : Bool := match key.factorRef with
  | some ref => ref.slug = factor
  | none => key.bandingRef.isNone && key.name = factor

/-- `_check_reseed_lineage`: a seed into a table needs its one key to name the factor. -/
def Table.checkReseedLineage (t : Table) (factor : String) : Except Refusal PUnit := do
  let current ← t.loadVersion t.currentVersion
  ensure (current.keys.length = 1 ∧ current.keys.all fun k => keyTakesTheSeed k factor)
    (.seedRefused "needs exactly one key that is bound to that Factor")

def guardSeedLineage (derived baseline : RateTableVersion) : Except Refusal PUnit :=
  ensure (derived.seededFrom = baseline.seededFrom) .seedMismatch

/-- `_persist_new_version`: the columns of the definition are stored, under a number not taken. -/
def Table.persistNewVersion (t : Table) (derived : RateTableVersion) : Except Refusal Table := do
  let rows ← derived.rowsOf
  let lines ← rows.mapM (cellsOf derived.header)
  ensure (∀ v ∈ t.versions, v.version ≠ derived.version) .versionExists
  return { t with
    currentVersion := derived.version
    versions := t.versions ++ [{ derived with cells := .rows (lines.map (dictZip derived.header)) }] }

/-- The version of a confirmed import. -/
def importDerived (v : RateTableVersion) (result : ImportResult) (filename : String) :
    RateTableVersion :=
  ⟨v.slug, v.version + 1, true, v.keys, v.value, v.defaultRow, .rows result.cells,
    "import: " ++ filename, v.seededFrom,
    .imported v.version filename result.createdByImport.contentSha256⟩

inductive Write
  | seed (r : SeedRequest)
  | bulk (version : ℕ) (op : BulkOperation) (note : String)
  | edit (version : ℕ) (edits : List CellRow) (note : String)
  | importFile (version : ℕ) (content : ByteArray) (filename : String)

/-- The version a write of a base makes. -/
def Write.derive (host : Host) (base : RateTableVersion) : Write → Except Refusal RateTableVersion
  | .seed _ => .error .miss
  | .bulk _ op note => applyBulk host.engine base op note
  | .edit _ edits note => editDerived host.engine base edits note
  | .importFile _ content filename =>
    (importConfirmed host base content filename).map fun result => importDerived base result filename

/-- A derived version is saved where its seed lineage is its base's. -/
def Table.saveDerived (host : Host) (t : Table) (w : Write) (version : ℕ) : Except Refusal Table := do
  let base ← t.loadVersion version
  let derived ← w.derive host base
  guardSeedLineage derived base
  t.persistNewVersion derived

def Table.saveSeed (host : Host) (t : Table) (r : SeedRequest) : Except Refusal Table := do
  let number := if t.versions = [] then 1 else t.currentVersion + 1
  let derived ← seedFromModel host.engine t.slug number r
  if t.versions = [] then t.persistNewVersion derived
  else
    t.checkReseedLineage r.factor
    t.persistNewVersion derived

def Table.save (host : Host) (t : Table) (w : Write) : Except Refusal Table := match w with
  | .seed r => t.saveSeed host r
  | .bulk version _ _ | .edit version _ _ | .importFile version _ _ => t.saveDerived host w version

/-- One write. A refused one is rolled back. -/
def step (host : Host) (t : Table) (w : Write) : Option Table := match t.save host w with
  | .ok t' => some t'
  | .error _ => some t

end GiPricing.RateTables
