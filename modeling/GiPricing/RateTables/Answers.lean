import GiPricing.RateTables.Complete

/-! # What an import answers

A preview and a confirmed import of any bytes return a result or raise a value error of the module,
unless the reader of the file raises an error of its own or a change leaves the decimal context.
-/

namespace GiPricing.RateTables

open Failure Decimal

variable {host : Host} {v : RateTableVersion} {rows : List CellRow} {content : ByteArray}
  {filename : String} {e : Refusal}

/-- A value error that the module raises under one of its own codes, or the prose of a row without a
key. The others are the language's own errors. A value of a stored row that is a decimal but no finite
number is refused by name as well. -/
def Refusal.Named : Refusal → Prop
  | .keyError _ | .csvError | .xlsxError _ | .decimalOverflow => False
  | .notANumber raw => (parse raw).isSome = true
  | _ => True

/-- A result, or a value error of the module. -/
def Answered {α : Type} (x : Except Refusal α) : Prop := ∀ e, x = .error e → e.Named

/-- The rows of the base have their keys and a decimal each, as they were saved. -/
def Stored (v : RateTableVersion) : Prop := ∀ rows, v.cells = .rows rows → ∀ row ∈ rows,
  (∃ key, keyOf v.keyNames row = some key) ∧
    ∃ raw, row.get? v.value.name = some raw ∧ (parse raw).isSome = true

/-- The reader of the file raises nothing that is not caught: no carriage return outside quotes stands
inside a line and no field is too long, and the XLSX reader raises no other error than its two. -/
def Readable (host : Host) (content : ByteArray) (filename : String) : Prop :=
  if isCsv filename then ∀ text, String.fromUTF8? content = some text →
    ¬ Csv.RaisesFrom (.startRecord, 0) text.toList
  else ∀ exception, host.parseXlsx content ≠ .error (.raised exception)

/-- The changes of the cells are within the decimal context. -/
def ChangesInRange (v : RateTableVersion) (rows file : List CellRow) : Prop :=
  ∀ cells, diffCells rows file v = .ok cells → ∀ c ∈ cells, c.InRange

/-! ## The checks of a file -/

theorem headerAndRows_eq_error {lines : List (List String)}
    (h : headerAndRows filename lines = .error e) : e = .parseError filename := by
  cases lines with
  | nil =>
    cases h
    rfl
  | cons header lines => cases h

theorem parseCsv_answered (h : ∀ text, String.fromUTF8? content = some text →
    ¬ Csv.RaisesFrom (.startRecord, 0) text.toList) : Answered (parseCsv content filename) := by
  intro e he
  rcases bind_eq_error.mp he with he | ⟨text, htext, he⟩
  · obtain ⟨-, rfl⟩ := require_eq_error.mp he
    trivial
  · rcases bind_eq_error.mp he with he | ⟨lines, -, he⟩
    · obtain ⟨hnone, -⟩ := require_eq_error.mp he
      exact absurd (Csv.readRows_eq_none.mp hnone) (h text (require_eq_ok.mp htext))
    · rw [headerAndRows_eq_error he]
      trivial

theorem parseXlsx_answered (h : ∀ exception, host.parseXlsx content ≠ .error (.raised exception)) :
    Answered (parseXlsx host content filename) := by
  intro e he
  rcases bind_eq_error.mp he with he | ⟨lines, -, he⟩
  · cases hx : host.parseXlsx content with
    | ok lines =>
      rw [hx] at he
      cases he
    | error x =>
      rw [hx] at he
      cases x with
      | unreadable =>
        cases he
        trivial
      | raised exception => exact absurd hx (h exception)
  · rw [headerAndRows_eq_error he]
    trivial

theorem get?_foldl_insert_of_mem {entries : List (String × String)} {d : CellRow} {c : String}
    (h : c ∈ entries.map Prod.fst ∨ ∃ text, d.get? c = some text) :
    ∃ text, (entries.foldl (fun d entry => d.insert entry.1 entry.2) d).get? c = some text := by
  induction entries generalizing d with
  | nil =>
    rcases h with h | h
    · cases h
    · exact h
  | cons entry entries ih =>
    rw [List.foldl_cons]
    apply ih
    rw [Dict.get?_insert]
    rcases h with h | ⟨text, htext⟩
    · rcases List.mem_cons.mp h with rfl | h
      · exact Or.inr ⟨entry.2, if_pos rfl⟩
      · exact Or.inl h
    · right
      split_ifs
      · exact ⟨_, rfl⟩
      · exact ⟨text, htext⟩

theorem get?_dictZip {header line : List String} (hlength : line.length = header.length)
    {c : String} (hc : c ∈ header) : ∃ text, (dictZip header line).get? c = some text := by
  apply get?_foldl_insert_of_mem
  left
  rwa [List.map_fst_zip hlength.ge]

theorem checkImportTypes_answered
    (h : ∀ row ∈ rows, ∀ name ∈ v.keyNames, ∃ text, row.get? name = some text) :
    Answered (checkImportTypes host v rows) := by
  intro e he
  rcases bind_eq_error.mp he with he | ⟨_, -, he⟩
  · obtain ⟨pre, key, post, hkeys, -, he⟩ := mapM_eq_error.mp he
    have hkey : key.name ∈ v.keyNames :=
      List.mem_map_of_mem (hkeys ▸ List.mem_append_right _ List.mem_cons_self)
    split_ifs at he
    obtain ⟨pre', row, post', hrows, -, he⟩ := mapM_eq_error.mp he
    have hrow : row ∈ rows := hrows ▸ List.mem_append_right _ List.mem_cons_self
    rcases bind_eq_error.mp he with he | ⟨raw, -, he⟩
    · obtain ⟨hnone, -⟩ := require_eq_error.mp he
      obtain ⟨text, htext⟩ := h row hrow key.name hkey
      rw [hnone] at htext
      cases htext
    · obtain ⟨-, rfl⟩ := ensure_eq_error.mp he
      trivial
  · cases he

theorem keyDomainsOf_ok (h : ∀ row ∈ rows, ∃ key, keyOf v.keyNames row = some key) :
    keyDomainsOf rows v.keys = .ok (levels rows) := by
  obtain ⟨found, hfound⟩ : ∃ found, (v.keys.mapM fun key => rows.mapM fun row =>
      require (row.get? key.name) (Refusal.keyError key.name)) = .ok found := by
    refine exists_mapM_ok fun key hkey => exists_mapM_ok fun row hrow => ?_
    obtain ⟨texts, htexts⟩ := h row hrow
    exact (get?_of_keyOf htexts (List.mem_map_of_mem hkey)).imp fun text htext =>
      require_eq_ok.mpr htext
  exact bind_eq_ok.mpr ⟨found, hfound, rfl⟩

theorem validateRateTable_answered {engine : Engine} {keys : List RateTableKey}
    {value : RateTableValue} {domains : String → List String} {defaultRow : Option CellRow} :
    Answered (validateRateTable engine rows keys value domains defaultRow) := by
  intro e he
  rcases bind_eq_error.mp he with he | ⟨_, -, he⟩
  · obtain ⟨key, rfl⟩ := scan_eq_error he
    trivial
  · cases he

def readFile (host : Host) (content : ByteArray) (filename : String) :
    Except Refusal (List String × List (List String)) :=
  if isCsv filename then parseCsv content filename else parseXlsx host content filename

theorem read_answered (h : Readable host content filename) :
    Answered (readFile host content filename) := by
  rw [Readable] at h
  rw [readFile]
  split_ifs at h ⊢
  · exact parseCsv_answered h
  · exact parseXlsx_answered h

theorem importConfirmed_eq : importConfirmed host v content filename = (do
    let rows ← v.rowsOf
    let file ← readFile host content filename
    ensure (file.1 = v.header) (.keyMismatch file.1 v.header)
    ensure (∀ row ∈ file.2, row.length = file.1.length) (.parseError filename)
    let fileRows := file.2.map (dictZip file.1)
    checkImportTypes host v fileRows
    let domains ← keyDomainsOf rows v.keys
    let issues ← validateRateTable host.engine fileRows v.keys v.value domains v.defaultRow
    refuseFirst issues
    return {
      cells := fileRows
      createdByImport := {
        filename, contentSha256 := host.sha256 content, roundTrip := "passed"
        appliedTo := v.version
      }
    }) := by
  rw [readFile, importConfirmed, checkedImport]
  split_ifs
  · rfl
  · rfl

/-- The strict checks refuse by name what the reader has read. -/
theorem importConfirmed_answered (hbase : Stored v) (hcells : v.cells = .rows rows)
    (h : Readable host content filename) : Answered (importConfirmed host v content filename) := by
  intro e he
  rw [importConfirmed_eq] at he
  rcases bind_eq_error.mp he with he | ⟨rows', hrows', he⟩
  · rw [rowsOf_eq_ok.mpr hcells] at he
    cases he
  obtain rfl : rows' = rows := Except.ok.inj (hrows'.symm.trans (rowsOf_eq_ok.mpr hcells))
  rcases bind_eq_error.mp he with he | ⟨⟨header, data⟩, -, he⟩
  · exact read_answered h e he
  rcases bind_eq_error.mp he with he | ⟨_, hheader, he⟩
  · obtain ⟨-, rfl⟩ := ensure_eq_error.mp he
    trivial
  rcases bind_eq_error.mp he with he | ⟨_, hlength, he⟩
  · obtain ⟨-, rfl⟩ := ensure_eq_error.mp he
    trivial
  have hheader' := ensure_eq_ok.mp hheader
  have hlength' := ensure_eq_ok.mp hlength
  have hcolumns : ∀ row ∈ data.map (dictZip header), ∀ name ∈ v.keyNames,
      ∃ text, row.get? name = some text := by
    intro row hrow name hname
    obtain ⟨line, hline, rfl⟩ := List.mem_map.mp hrow
    exact get?_dictZip (hlength' line hline) (hheader' ▸ keyNames_subset hname)
  rcases bind_eq_error.mp he with he | ⟨_, -, he⟩
  · exact checkImportTypes_answered hcolumns e he
  rw [keyDomainsOf_ok fun row hrow => (hbase rows' hcells row hrow).1] at he
  rcases bind_eq_error.mp he with he | ⟨domains, -, he⟩
  · cases he
  rcases bind_eq_error.mp he with he | ⟨issues, -, he⟩
  · exact validateRateTable_answered e he
  rcases bind_eq_error.mp he with he | ⟨_, -, he⟩
  · obtain ⟨issue, -, rfl⟩ := refuseFirst_eq_error he
    trivial
  · cases he

/-! ## The preview -/

theorem cellValue_answered {row : CellRow} {name : String}
    (h : ∃ raw, row.get? name = some raw ∧ (parse raw).isSome = true) :
    Answered (cellValue name row) := by
  intro e he
  obtain ⟨raw, hraw, hparse⟩ := h
  rcases bind_eq_error.mp he with he | ⟨raw', hraw', he⟩
  · rw [hraw] at he
    cases he
  · obtain rfl : raw' = raw := Option.some.inj ((require_eq_ok.mp hraw').symm.trans hraw)
    obtain ⟨-, rfl⟩ := require_eq_error.mp he
    exact hparse

theorem indexRows_answered (h : ∀ row ∈ rows,
    ∃ raw, row.get? v.value.name = some raw ∧ (parse raw).isSome = true) :
    Answered (indexRows v.keyNames v.value.name rows) := by
  intro e he
  obtain ⟨pre, row, post, hrows, -, he⟩ := mapM_eq_error.mp he
  have hrow : row ∈ rows := hrows ▸ List.mem_append_right _ List.mem_cons_self
  rcases bind_eq_error.mp he with he | ⟨key, -, he⟩
  · obtain ⟨name, rfl⟩ := rowKey_eq_error he
    trivial
  · rcases bind_eq_error.mp he with he | ⟨q, -, he⟩
    · exact cellValue_answered (h row hrow) e he
    · cases he

theorem diffCells_answered {engine : Engine} {file : List CellRow}
    (h : ∀ row ∈ rows, ∃ raw, row.get? v.value.name = some raw ∧ (parse raw).isSome = true)
    (hsound : Sound engine v.keyNames v.value file) : Answered (diffCells rows file v) := by
  intro e he
  rcases bind_eq_error.mp he with he | ⟨before, -, he⟩
  · exact indexRows_answered h e he
  · obtain ⟨after, hafter⟩ := indexRows_ok hsound
    rw [hafter] at he
    cases he

theorem importConfirmed_raises {e : Refusal} (hcells : v.cells = .rows rows)
    (h : readFile host content filename = .error e) :
    importConfirmed host v content filename = .error e := by
  rw [importConfirmed_eq]
  exact bind_eq_error.mpr (Or.inr ⟨rows, rowsOf_eq_ok.mpr hcells, bind_eq_error.mpr (Or.inl h)⟩)

/-- Every file is answered by name exactly where its reader raises nothing of its own and the changes
that an accepted file previews are within the decimal context. -/
theorem answered_iff (hbase : Stored v) (host : Host) (content : ByteArray) (filename : String) :
    (Answered (importConfirmed host v content filename) ∧
      Answered (importFromCsv host v content filename)) ↔
    ∀ rows, v.cells = .rows rows → Readable host content filename ∧
      ∀ result, importConfirmed host v content filename = .ok result →
        ChangesInRange v rows result.cells := by
  constructor
  · rintro ⟨hconfirmed, hpreview⟩ rows hcells
    refine ⟨?_, fun result hresult cells hdiff => ?_⟩
    · by_contra hread
      rw [Readable] at hread
      split_ifs at hread with hcsv
      · push Not at hread
        obtain ⟨text, htext, hraises⟩ := hread
        apply hconfirmed .csvError (importConfirmed_raises hcells ?_)
        rw [readFile, if_pos hcsv]
        exact bind_eq_error.mpr (Or.inr ⟨text, require_eq_ok.mpr htext, bind_eq_error.mpr
          (Or.inl (require_eq_error.mpr ⟨Csv.readRows_eq_none.mpr hraises, rfl⟩))⟩)
      · push Not at hread
        obtain ⟨exception, hraised⟩ := hread
        apply hconfirmed (.xlsxError exception) (importConfirmed_raises hcells ?_)
        rw [readFile, if_neg hcsv, parseXlsx, hraised]
        rfl
    · by_contra hrange
      refine hpreview .decimalOverflow (bind_eq_error.mpr (Or.inr ⟨result, hresult,
        bind_eq_error.mpr (Or.inr ⟨rows, rowsOf_eq_ok.mpr hcells, bind_eq_error.mpr (Or.inr
          ⟨cells, hdiff, bind_eq_error.mpr (Or.inl (ensure_eq_error.mpr ⟨hrange, rfl⟩))⟩)⟩)⟩))
  · intro h
    cases hcells : v.cells with
    | parquet sha256 =>
      have hrows : v.rowsOf = .error .parquetCellsUnavailable := by
        rw [RateTableVersion.rowsOf, hcells]
      have hconfirmed : importConfirmed host v content filename = .error .parquetCellsUnavailable :=
        bind_eq_error.mpr (Or.inl hrows)
      refine ⟨fun e he => ?_, fun e he => ?_⟩
      · rw [hconfirmed] at he
        cases he
        trivial
      · rw [show importFromCsv host v content filename = .error .parquetCellsUnavailable from
          bind_eq_error.mpr (Or.inl hconfirmed)] at he
        cases he
        trivial
    | rows rows =>
      obtain ⟨hread, hrange⟩ := h rows hcells
      have hconfirmed := importConfirmed_answered hbase hcells hread
      refine ⟨hconfirmed, fun e he => ?_⟩
      rcases bind_eq_error.mp he with he | ⟨result, hresult, he⟩
      · exact hconfirmed e he
      rcases bind_eq_error.mp he with he | ⟨rows', hrows', he⟩
      · rw [rowsOf_eq_ok.mpr hcells] at he
        cases he
      obtain rfl : rows' = rows := Except.ok.inj (hrows'.symm.trans (rowsOf_eq_ok.mpr hcells))
      rcases bind_eq_error.mp he with he | ⟨cells, hdiff, he⟩
      · exact diffCells_answered (fun row hrow => (hbase rows' hcells row hrow).2)
          (importConfirmed_eq_ok hresult).2 e he
      rcases bind_eq_error.mp he with he | ⟨_, -, he⟩
      · exact absurd (hrange result hresult cells hdiff) (ensure_eq_error.mp he).1
      · cases he

theorem ageTable_stored : Stored (ageTable .string "young") := by
  intro rows hrows row hrow
  cases hrows
  rw [List.mem_singleton.mp hrow]
  exact ⟨⟨["young"], rfl⟩, "1", rfl, by decide⟩

def returnFile : ByteArray := "age,rel\ryoung,1\r".toUTF8

theorem returnFile_answered_iff :
    (Answered (importConfirmed literalHost (ageTable .string "young") returnFile "age.csv") ∧
      Answered (importFromCsv literalHost (ageTable .string "young") returnFile "age.csv")) ↔
    ∀ rows, (ageTable .string "young").cells = .rows rows →
      Readable literalHost returnFile "age.csv" ∧
        ∀ result, importConfirmed literalHost (ageTable .string "young") returnFile "age.csv" =
          .ok result → ChangesInRange (ageTable .string "young") rows result.cells :=
  answered_iff ageTable_stored literalHost returnFile "age.csv"

/-- The reader's own error of a carriage return inside a line is not caught. -/
theorem returnFile_raises : ¬ ∀ host v content filename, Stored v →
    Answered (importConfirmed host v content filename) ∧
      Answered (importFromCsv host v content filename) := by
  intro h
  have herror : importConfirmed literalHost (ageTable .string "young") returnFile "age.csv" =
      .error .csvError := by
    apply importConfirmed_raises rfl
    rw [readFile, if_pos (by decide), parseCsv, returnFile, fromUTF8?_toUTF8]
    decide
  exact (h literalHost _ returnFile "age.csv" ageTable_stored).1 .csvError herror

end GiPricing.RateTables
