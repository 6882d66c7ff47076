import GiPricing.Failure.Except
import GiPricing.Runtime.Wire
import Mathlib.Data.List.Sections

/-! # Rate tables

A version of a rate table with its key columns, its value column and its cells, and the check of
the cells before a version is saved.
-/

namespace GiPricing.RateTables

open Failure Decimal

inductive ValueType
  | relativity
  | moneyMinor
  | percentage
  | count
  deriving DecidableEq

structure RateTableKey where
  name : String
  type : KeyType
  bandingRef : Option ArtifactRef
  factorRef : Option ArtifactRef
  deriving DecidableEq

structure RateTableValue where
  name : String
  type : ValueType
  unit : String
  min : Option ℚ
  max : Option ℚ
  deriving DecidableEq

/-- One row: the key columns and the value column, all texts. -/
abbrev CellRow := Dict String

/-- The key of a row: one value for each key column, in their order. -/
abbrev KeyTuple := List String

structure SeededFrom where
  modelRef : ArtifactRef
  seededAt : ℕ
  deriving DecidableEq

inductive BulkKind
  | upliftTable
  | upliftByFilter
  | floorAndCap
  | rebaseToLevel
  deriving DecidableEq

inductive Creation
  | seed
  | operation (kind : BulkKind) (appliedTo : ℕ) (changedCells : ℕ)
  | imported (appliedTo : ℕ) (filename contentSha256 : String)
  | edit (appliedTo : ℕ) (editedCells : ℕ)
  deriving DecidableEq

inductive Storage
  | rows (rows : List CellRow)
  | parquet (sha256 : String)
  deriving DecidableEq

/-- A version in its wire form: inline rows or a blob, never both. -/
structure RateTableVersion where
  slug : String
  version : ℕ
  rateable : Bool
  keys : List RateTableKey
  value : RateTableValue
  defaultRow : Option CellRow
  cells : Storage
  changeNote : String
  seededFrom : Option SeededFrom
  createdBy : Creation
  deriving DecidableEq

def RateTableVersion.keyNames (v : RateTableVersion) : List String := v.keys.map RateTableKey.name

/-! ## The check of the cells -/

inductive ValidationIssue
  | nullValue (key : KeyTuple)
  | notDecimal (raw : String) (key : KeyTuple)
  | notFinite (raw : String) (key : KeyTuple)
  | unparseable (raw : String) (key : KeyTuple)
  | belowMinimum (raw : String) (key : KeyTuple) (bound : ℚ)
  | aboveMaximum (raw : String) (key : KeyTuple) (bound : ℚ)
  | duplicateKey (key : KeyTuple)
  | incompleteKeyDomain (key : KeyTuple)
  deriving DecidableEq

def ValidationIssue.code : ValidationIssue → String
  | nullValue _ => "NULL_VALUE"
  | notDecimal .. | notFinite .. | belowMinimum .. | aboveMaximum .. => "OUT_OF_BOUNDS"
  | unparseable .. => "RATE_TABLE_CELL_UNPARSEABLE"
  | duplicateKey _ => "DUPLICATE_KEY"
  | incompleteKeyDomain _ => "INCOMPLETE_KEY_DOMAIN"

/-- Why an operation on a version is refused, or what it raises. -/
inductive Refusal
  | parquetCellsUnavailable
  | lacksKey (key : String)
  | keyError (column : String)
  | notANumber (raw : String)
  | invalid (issue : ValidationIssue)
  | notApplicable (kind : BulkKind) (type : ValueType)
  | filterUnknownKey (keys : List String)
  | floorAboveCap (floor cap : ℚ)
  | rebaseNoMatch
  | rebaseAmbiguous (matching : ℕ)
  | rebaseZeroReference
  | cellUnparseable
  | parseError (filename : String)
  | csvError
  | xlsxError (exception : String)
  | decimalOverflow
  | keyMismatch (header expected : List String)
  | typeMismatch (raw key : String)
  | editIssues (issues : List (ℕ × String))
  | seedRefused (reason : String)
  | seedMismatch
  | miss
  | versionExists
  deriving DecidableEq

def RateTableVersion.rowsOf (v : RateTableVersion) : Except Refusal (List CellRow) := match v.cells with
  | .rows rows => .ok rows
  | .parquet _ => .error .parquetCellsUnavailable

/-- `_row_key`: the first key column the row lacks is named. -/
def rowKey (keyNames : List String) (row : CellRow) : Except Refusal KeyTuple :=
  keyNames.mapM fun key => require (row.get? key) (.lacksKey key)

/-- `_value_issue`, of a row with its key. -/
def valueIssue (engine : Engine) (value : RateTableValue) (key : KeyTuple) (row : CellRow) :
    Option ValidationIssue :=
  match row.get? value.name with
  | none => some (.nullValue key)
  | some raw =>
    if raw = "" then some (.nullValue key)
    else match parse raw with
      | none => some (.notDecimal raw key)
      | some number => match number.toRat? with
        | none => some (.notFinite raw key)
        | some q =>
          if cellParses engine raw = false then some (.unparseable raw key)
          else if value.min.any (q < ·) then some (.belowMinimum raw key (value.min.getD 0))
          else if value.max.any (· < q) then some (.aboveMaximum raw key (value.max.getD 0))
          else none

/-- The issues of the rows in turn, with the keys seen. -/
def scan (engine : Engine) (keyNames : List String) (value : RateTableValue) :
    List CellRow → List KeyTuple → Except Refusal (List ValidationIssue × List KeyTuple)
  | [], seen => .ok ([], seen)
  | row :: rows, seen => do
    let key ← rowKey keyNames row
    if key ∈ seen then
      let (issues, seen') ← scan engine keyNames value rows seen
      return (.duplicateKey key :: issues, seen')
    else
      let (issues, seen') ← scan engine keyNames value rows (key :: seen)
      return ((valueIssue engine value key row).toList ++ issues, seen')

/-- `validate_rate_table`: a domain for each key column, and a default row that waives coverage. -/
def validateRateTable (engine : Engine) (cells : List CellRow) (keys : List RateTableKey)
    (value : RateTableValue) (keyDomains : String → List String) (defaultRow : Option CellRow) :
    Except Refusal (List ValidationIssue) := do
  let keyNames := keys.map RateTableKey.name
  let (issues, seen) ← scan engine keyNames value cells []
  let missing := if defaultRow.isNone then
    (keyNames.map keyDomains).sections.filter fun key => key ∉ seen else []
  return issues ++ missing.map .incompleteKeyDomain

def levels (rows : List CellRow) (key : String) : List String := rows.filterMap fun row => row.get? key

/-- `frozenset(row[key.name] for row in rows)` for each key. -/
def keyDomainsOf (rows : List CellRow) (keys : List RateTableKey) :
    Except Refusal (String → List String) := do
  let _ ← keys.mapM fun key => rows.mapM fun row => require (row.get? key.name) (.keyError key.name)
  return levels rows

def refuseFirst (issues : List ValidationIssue) : Except Refusal PUnit := match issues with
  | [] => .ok ⟨⟩
  | issue :: _ => .error (.invalid issue)

/-! ## What the check means -/

section Spec

variable {engine : Engine} {keyNames : List String} {value : RateTableValue} {row row' : CellRow}
  {rows rows' : List CellRow} {seen : List KeyTuple} {keys : List RateTableKey}
  {domains : String → List String} {defaultRow : Option CellRow}

def keyOf (keyNames : List String) (row : CellRow) : Option KeyTuple :=
  keyNames.mapM fun key => row.get? key

theorem keyOf_cons_eq_some {name : String} {names : List String} {key : KeyTuple} :
    keyOf (name :: names) row = some key ↔
      ∃ value rest, row.get? name = some value ∧ keyOf names row = some rest ∧ value :: rest = key := by
  simp only [keyOf, List.mapM_cons, Option.bind_eq_bind, Option.bind_eq_some_iff, Option.pure_def,
    Option.some.injEq]
  constructor
  · rintro ⟨value, hvalue, rest, hrest, hkey⟩
    exact ⟨value, rest, hvalue, hrest, hkey⟩
  · rintro ⟨value, rest, hvalue, hrest, hkey⟩
    exact ⟨value, hvalue, rest, hrest, hkey⟩

theorem rowKey_eq_ok {key : KeyTuple} : rowKey keyNames row = .ok key ↔ keyOf keyNames row = some key := by
  induction keyNames generalizing key with
  | nil => simp [rowKey, keyOf, pure, Except.pure, eq_comm]
  | cons name names ih =>
    simp only [rowKey, keyOf, List.mapM_cons, require_eq_ok, bind_eq_ok, pure_eq_ok,
      Option.bind_eq_bind, Option.bind_eq_some_iff, Option.pure_def, Option.some.injEq] at ih ⊢
    simp only [ih]

theorem keyOf_congr (h : ∀ name ∈ keyNames, row'.get? name = row.get? name) :
    keyOf keyNames row' = keyOf keyNames row := by
  induction keyNames with
  | nil => rfl
  | cons name names ih =>
    rw [keyOf, keyOf, List.mapM_cons, List.mapM_cons, h name List.mem_cons_self]
    have hrest := ih fun n hn => h n (List.mem_cons_of_mem _ hn)
    rw [keyOf, keyOf] at hrest
    rw [hrest]

theorem get?_of_keyOf {key : KeyTuple} (h : keyOf keyNames row = some key) {name : String}
    (hname : name ∈ keyNames) : ∃ v, row.get? name = some v := by
  induction keyNames generalizing key with
  | nil => cases hname
  | cons n names ih =>
    obtain ⟨v, rest, hv, hrest, -⟩ := keyOf_cons_eq_some.mp h
    rcases List.mem_cons.mp hname with rfl | hname
    · exact ⟨v, hv⟩
    · exact ih hrest hname

/-- Cells with a key each, no key twice and no issue of a value. -/
structure Sound (engine : Engine) (keyNames : List String) (value : RateTableValue)
    (rows : List CellRow) : Prop where
  keyed : ∀ row ∈ rows, ∃ key, keyOf keyNames row = some key
  nodup : (rows.map (keyOf keyNames)).Nodup
  values : ∀ row ∈ rows, ∀ key, keyOf keyNames row = some key →
    valueIssue engine value key row = none

theorem sound_nil : Sound engine keyNames value [] :=
  ⟨by rintro row ⟨⟩, List.nodup_nil, by rintro row ⟨⟩⟩

theorem sound_cons : Sound engine keyNames value (row :: rows) ↔
    ∃ key, keyOf keyNames row = some key ∧ valueIssue engine value key row = none ∧
      some key ∉ rows.map (keyOf keyNames) ∧ Sound engine keyNames value rows := by
  constructor
  · intro h
    obtain ⟨key, hkey⟩ := h.keyed row List.mem_cons_self
    have hnodup := h.nodup
    rw [List.map_cons, List.nodup_cons, hkey] at hnodup
    exact ⟨key, hkey, h.values row List.mem_cons_self key hkey, hnodup.1,
      fun r hr => h.keyed r (List.mem_cons_of_mem _ hr), hnodup.2,
      fun r hr => h.values r (List.mem_cons_of_mem _ hr)⟩
  · rintro ⟨key, hkey, hvalue, hfresh, h⟩
    refine ⟨?_, ?_, ?_⟩
    · intro r hr
      rcases List.mem_cons.mp hr with rfl | hr
      · exact ⟨key, hkey⟩
      · exact h.keyed r hr
    · rw [List.map_cons, List.nodup_cons, hkey]
      exact ⟨hfresh, h.nodup⟩
    · intro r hr k hk
      rcases List.mem_cons.mp hr with rfl | hr
      · obtain rfl := Option.some.inj (hkey.symm.trans hk)
        exact hvalue
      · exact h.values r hr k hk

/-- The rows in turn have no issue exactly where they are sound and repeat no key seen before. -/
theorem scan_eq_nil {seen' : List KeyTuple} :
    scan engine keyNames value rows seen = .ok ([], seen') ↔
      Sound engine keyNames value rows ∧ (∀ key ∈ seen, some key ∉ rows.map (keyOf keyNames)) ∧
        seen'.map some = (rows.map (keyOf keyNames)).reverse ++ seen.map some := by
  induction rows generalizing seen with
  | nil =>
    simp only [scan, Except.ok.injEq, Prod.mk.injEq, true_and, List.map_nil, List.not_mem_nil,
      not_false_eq_true, implies_true, List.reverse_nil, List.nil_append, sound_nil]
    exact ⟨fun h => h ▸ rfl, fun h => (List.map_injective_iff.mpr (Option.some_injective _) h).symm⟩
  | cons row rows ih =>
    simp only [scan, bind_eq_ok, rowKey_eq_ok, sound_cons]
    constructor
    · rintro ⟨key, hkey, h⟩
      split_ifs at h with hseen
      · obtain ⟨⟨issues, s⟩, -, h⟩ := bind_eq_ok.mp h
        cases h
      · obtain ⟨⟨issues, s⟩, hscan, h⟩ := bind_eq_ok.mp h
        simp only [pure_eq_ok, Prod.mk.injEq, List.append_eq_nil_iff, Option.toList_eq_nil_iff] at h
        obtain ⟨⟨hvalue, rfl⟩, rfl⟩ := h
        obtain ⟨hsound, hfresh, hs⟩ := ih.mp hscan
        refine ⟨⟨key, hkey, hvalue, hfresh key List.mem_cons_self, hsound⟩, ?_, ?_⟩
        · intro k hk hmem
          rw [List.map_cons, List.mem_cons, hkey] at hmem
          rcases hmem with he | hmem
          · exact hseen (Option.some.inj he ▸ hk)
          · exact hfresh k (List.mem_cons_of_mem _ hk) hmem
        · rw [hs, List.map_cons, List.map_cons, hkey, List.reverse_cons, List.append_assoc]
          rfl
    · rintro ⟨⟨key, hkey, hvalue, hnew, hsound⟩, hfresh, hs⟩
      refine ⟨key, hkey, ?_⟩
      have hseen : key ∉ seen := by
        intro hk
        refine hfresh key hk ?_
        rw [List.map_cons, hkey]
        exact List.mem_cons_self
      have hscan : scan engine keyNames value rows (key :: seen) = .ok ([], seen') := by
        refine ih.mpr ⟨hsound, ?_, ?_⟩
        · intro k hk hmem
          rcases List.mem_cons.mp hk with rfl | hk
          · exact hnew hmem
          · refine hfresh k hk ?_
            rw [List.map_cons]
            exact List.mem_cons_of_mem _ hmem
        · rw [hs, List.map_cons, List.map_cons, hkey, List.reverse_cons, List.append_assoc]
          rfl
      rw [if_neg hseen, hscan, hvalue]
      rfl

/-- The cells cover the domains of the key columns. -/
def Covers (domains : String → List String) (keyNames : List String) (rows : List CellRow) : Prop :=
  ∀ key ∈ (keyNames.map domains).sections, some key ∈ rows.map (keyOf keyNames)

theorem validateRateTable_eq_nil :
    validateRateTable engine rows keys value domains defaultRow = .ok [] ↔
      Sound engine (keys.map RateTableKey.name) value rows ∧
        (defaultRow = none → Covers domains (keys.map RateTableKey.name) rows) := by
  set names := keys.map RateTableKey.name
  have hcovers : ∀ seen : List KeyTuple, seen.map some = (rows.map (keyOf names)).reverse →
      ((((names.map domains).sections.filter fun key => key ∉ seen) = []) ↔
        Covers domains names rows) := by
    intro seen hseen
    have hmem : ∀ key, key ∈ seen ↔ some key ∈ rows.map (keyOf names) := by
      intro key
      rw [← @List.mem_reverse _ (some key) (rows.map (keyOf names)), ← hseen, List.mem_map]
      exact ⟨fun h => ⟨key, h, rfl⟩, fun ⟨k, hk, he⟩ => Option.some.inj he ▸ hk⟩
    simp [List.filter_eq_nil_iff, Covers, hmem]
  have hseen : Sound engine names value rows →
      ∃ seen : List KeyTuple, seen.map some = (rows.map (keyOf names)).reverse := by
    intro h
    refine ⟨(rows.filterMap (keyOf names)).reverse, ?_⟩
    rw [List.map_reverse, List.map_filterMap_some_eq_filter_map_isSome, List.filter_eq_self.mpr]
    intro o ho
    obtain ⟨row, hrow, rfl⟩ := List.mem_map.mp ho
    obtain ⟨key, hkey⟩ := h.keyed row hrow
    rw [hkey]
    rfl
  constructor
  · intro h
    simp only [validateRateTable, bind_eq_ok, pure_eq_ok, List.append_eq_nil_iff,
      List.map_eq_nil_iff] at h
    obtain ⟨⟨issues, seen⟩, hscan, rfl, hmissing⟩ := h
    obtain ⟨hsound, -, hs⟩ := scan_eq_nil.mp hscan
    rw [List.map_nil, List.append_nil] at hs
    refine ⟨hsound, ?_⟩
    rintro rfl
    exact (hcovers seen hs).mp hmissing
  · rintro ⟨hsound, hcover⟩
    obtain ⟨seen, hs⟩ := hseen hsound
    have hscan : scan engine names value rows [] = .ok ([], seen) :=
      scan_eq_nil.mpr ⟨hsound, by rintro key ⟨⟩, by rw [hs, List.map_nil, List.append_nil]⟩
    simp only [validateRateTable, bind_eq_ok, pure_eq_ok]
    refine ⟨_, hscan, ?_⟩
    cases defaultRow with
    | none =>
      simp only [Option.isNone_none, if_true, List.nil_append, List.map_eq_nil_iff]
      exact (hcovers seen hs).mpr (hcover rfl)
    | some row => rfl

theorem refuseFirst_eq_ok {issues : List ValidationIssue} {u : PUnit} :
    refuseFirst issues = .ok u ↔ issues = [] := by
  cases issues <;> simp [refuseFirst]

theorem keyDomainsOf_eq_ok {d : String → List String} (h : keyDomainsOf rows keys = .ok d) :
    d = levels rows := by
  obtain ⟨-, -, h⟩ := bind_eq_ok.mp h
  exact (pure_eq_ok.mp h).symm

theorem keyDomainsOf_sound (h : Sound engine (keys.map RateTableKey.name) value rows) :
    keyDomainsOf rows keys = .ok (levels rows) := by
  have hcolumn : ∀ key ∈ keys,
      ∃ r, (rows.mapM fun row => require (row.get? key.name) (Refusal.keyError key.name)) = .ok r := by
    intro key hkey
    refine exists_mapM_ok fun row hrow => ?_
    obtain ⟨k, hk⟩ := h.keyed row hrow
    obtain ⟨v, hv⟩ := get?_of_keyOf hk (List.mem_map_of_mem hkey)
    exact ⟨v, require_eq_ok.mpr hv⟩
  obtain ⟨r, hr⟩ := exists_mapM_ok hcolumn
  exact bind_eq_ok.mpr ⟨r, hr, rfl⟩

end Spec

end GiPricing.RateTables
