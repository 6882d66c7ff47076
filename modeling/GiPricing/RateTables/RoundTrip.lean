import GiPricing.RateTables.Import

/-! # The round trip of a rate table

A valid version comes back from its export exactly where its key columns hold values of their
types and its texts pass the CSV writer and reader.
-/

namespace GiPricing.RateTables

open Failure Decimal

variable {host : Host} {v : RateTableVersion} {row row' cell : CellRow} {rows rows' : List CellRow}
  {header names line : List String}

/-! ## Rows that agree -/

/-- The rows have the same texts in the columns. -/
def Agree (header : List String) (row' row : CellRow) : Prop :=
  ∀ column ∈ header, row'.get? column = row.get? column

theorem Agree.subset (h : Agree header row' row) (hsub : names ⊆ header) : Agree names row' row :=
  fun c hc => h c (hsub hc)

theorem Agree.keyOf (h : Agree header row' row) (hsub : names ⊆ header) :
    keyOf names row' = keyOf names row := keyOf_congr (h.subset hsub)

theorem valueIssue_congr {engine : Engine} {value : RateTableValue} {key : KeyTuple}
    (h : row'.get? value.name = row.get? value.name) :
    valueIssue engine value key row' = valueIssue engine value key row := by
  rw [valueIssue, valueIssue, h]

theorem keyNames_subset : v.keyNames ⊆ v.header := List.subset_append_left _ _

theorem valueName_mem : v.value.name ∈ v.header :=
  List.mem_append_right _ List.mem_cons_self

theorem map_keyOf_congr (h : List.Forall₂ (Agree header) rows' rows) (hsub : names ⊆ header) :
    rows'.map (keyOf names) = rows.map (keyOf names) := by
  induction h with
  | nil => rfl
  | cons hrow _ ih => rw [List.map_cons, List.map_cons, hrow.keyOf hsub, ih]

theorem sound_congr {engine : Engine} (h : List.Forall₂ (Agree v.header) rows' rows)
    (hs : Sound engine v.keyNames v.value rows) : Sound engine v.keyNames v.value rows' where
  keyed row' hrow' := by
    obtain ⟨row, hrow, hagree⟩ := exists_of_forall₂ h hrow'
    rw [hagree.keyOf keyNames_subset]
    exact hs.keyed row hrow
  nodup := by
    rw [map_keyOf_congr h keyNames_subset]
    exact hs.nodup
  values row' hrow' key hkey := by
    obtain ⟨row, hrow, hagree⟩ := exists_of_forall₂ h hrow'
    rw [hagree.keyOf keyNames_subset] at hkey
    rw [valueIssue_congr (hagree _ valueName_mem)]
    exact hs.values row hrow key hkey

/-! ## A line and its row -/

theorem cellsOf_eq_ok : cellsOf header row = .ok line ↔ keyOf header row = some line := by
  induction header generalizing line with
  | nil => simp [cellsOf, keyOf, pure, Except.pure, eq_comm]
  | cons name names ih =>
    simp only [cellsOf, keyOf, List.mapM_cons, require_eq_ok, bind_eq_ok, pure_eq_ok,
      Option.bind_eq_bind, Option.bind_eq_some_iff, Option.pure_def, Option.some.injEq] at ih ⊢
    simp only [ih]

theorem length_keyOf (h : keyOf header row = some line) : line.length = header.length := by
  induction header generalizing line with
  | nil => cases h; rfl
  | cons name names ih =>
    obtain ⟨c, rest, -, hrest, rfl⟩ := keyOf_cons_eq_some.mp h
    rw [List.length_cons, List.length_cons, ih hrest]

theorem mem_keyOf (h : keyOf header row = some line) {text : String} (ht : text ∈ line) :
    ∃ column ∈ header, row.get? column = some text := by
  induction header generalizing line with
  | nil => cases h; cases ht
  | cons name names ih =>
    obtain ⟨c, rest, hc, hrest, rfl⟩ := keyOf_cons_eq_some.mp h
    rcases List.mem_cons.mp ht with rfl | ht
    · exact ⟨name, List.mem_cons_self, hc⟩
    · obtain ⟨column, hcolumn, hget⟩ := ih hrest ht
      exact ⟨column, List.mem_cons_of_mem _ hcolumn, hget⟩

theorem get?_foldl_insert (h : keyOf header row = some line) (d : CellRow) (c : String) :
    ((header.zip line).foldl (fun d entry => d.insert entry.1 entry.2) d).get? c =
      if c ∈ header then row.get? c else d.get? c := by
  induction header generalizing line d with
  | nil => rfl
  | cons name names ih =>
    obtain ⟨text, rest, htext, hrest, rfl⟩ := keyOf_cons_eq_some.mp h
    rw [List.zip_cons_cons, List.foldl_cons, ih hrest]
    simp only [Dict.get?_insert, List.mem_cons]
    by_cases hc : c ∈ names
    · rw [if_pos hc, if_pos (Or.inr hc)]
    · by_cases hn : c = name
      · rw [if_neg hc, if_pos hn, if_pos (Or.inl hn), hn, htext]
      · rw [if_neg hc, if_neg hn, if_neg (by simp [hc, hn])]

theorem dictZip_agree (h : keyOf header row = some line) : Agree header (dictZip header line) row := by
  intro c hc
  rw [dictZip, get?_foldl_insert h, if_pos hc]

theorem dictZip_last {texts : List String} {name text : String} (hlen : names.length = texts.length) :
    (dictZip (names ++ [name]) (texts ++ [text])).get? name = some text := by
  rw [dictZip, List.zip_append hlen, List.foldl_append]
  simp only [List.zip_cons_cons, List.zip_nil_right, List.foldl_cons, List.foldl_nil]
  rw [Dict.get?_insert, if_pos rfl]

/-! ## The text -/

theorem fromUTF8?_toUTF8 (s : String) : String.fromUTF8? s.toUTF8 = some s := by
  rw [String.fromUTF8?, String.toUTF8_eq_toByteArray, dif_pos s.isValidUTF8]
  rfl

def chars (lines : List (List String)) : List (List (List Char)) :=
  lines.map fun line => line.map String.toList

theorem parseCsv_csvText {lines : List (List String)} {filename : String} {out}
    (h : parseCsv (csvText host lines).toUTF8 filename = .ok out) :
    Csv.readRows (Csv.write host.quotesReturn (chars lines)) = some (chars (out.1 :: out.2)) := by
  rw [parseCsv, fromUTF8?_toUTF8] at h
  simp only [require_bind_eq_ok, Option.some.injEq, exists_eq_left'] at h
  rw [csvText, String.toList_ofList] at h
  obtain ⟨read, hread, h⟩ := h
  rw [chars, hread]
  match read, h with
  | header :: rest, h =>
    cases h
    simp [chars, Function.comp_def]

theorem parseCsv_csvText_ok {header : List String} {lines : List (List String)} {filename : String}
    (h : Csv.readRows (Csv.write host.quotesReturn (chars (header :: lines))) =
      some (chars (header :: lines))) :
    parseCsv (csvText host (header :: lines)).toUTF8 filename = .ok (header, lines) := by
  rw [parseCsv, fromUTF8?_toUTF8]
  simp only [require_bind_eq_ok, Option.some.injEq, exists_eq_left']
  rw [csvText, String.toList_ofList]
  refine ⟨_, h, ?_⟩
  simp [chars, Function.comp_def, headerAndRows]

/-! ## The checks of an import -/

theorem checkImportTypes_eq_ok {u : PUnit} : checkImportTypes host v rows = .ok u ↔
    ∀ key ∈ v.keys, key.type ≠ .string → ∀ row ∈ rows, ∃ raw, row.get? key.name = some raw ∧
      valueMatchesKeyType host raw key.type = true := by
  simp only [checkImportTypes, bind_eq_ok, pure_eq_ok, and_true, exists_mapM_ok_iff]
  refine forall₂_congr fun key _ => ?_
  split_ifs with hs
  · simp [hs]
  · simp only [exists_mapM_ok_iff, bind_eq_ok, require_eq_ok, ensure_eq_ok, exists_const, ne_eq, hs,
      not_false_eq_true, forall_const]

theorem validateResult_eq_ok {engine : Engine} {u : PUnit} :
    validateResult engine v rows = .ok u ↔ Sound engine v.keyNames v.value rows ∧
      (v.defaultRow = none → Covers (levels rows) v.keyNames rows) := by
  constructor
  · intro h
    simp only [validateResult, bind_eq_ok, refuseFirst_eq_ok] at h
    obtain ⟨domains, hdomains, issues, hissues, rfl⟩ := h
    obtain rfl := keyDomainsOf_eq_ok hdomains
    exact validateRateTable_eq_nil.mp hissues
  · intro h
    simp only [validateResult, bind_eq_ok, refuseFirst_eq_ok]
    exact ⟨_, keyDomainsOf_sound h.1, [], validateRateTable_eq_nil.mpr h, rfl⟩

/-- What an accepted CSV import has read and checked. -/
theorem checkedImport_eq_ok {content : ByteArray} {filename : String} (hcsv : isCsv filename = true)
    {result : ImportResult} : checkedImport host v content filename = .ok result ↔
      ∃ rows data, v.rowsOf = .ok rows ∧ parseCsv content filename = .ok (v.header, data) ∧
        (∀ line ∈ data, line.length = v.header.length) ∧
        checkImportTypes host v (data.map (dictZip v.header)) = .ok ⟨⟩ ∧
        keyDomainsOf rows v.keys = .ok (levels rows) ∧
        Sound host.engine v.keyNames v.value (data.map (dictZip v.header)) ∧
        (v.defaultRow = none → Covers (levels rows) v.keyNames (data.map (dictZip v.header))) ∧
        result = ⟨data.map (dictZip v.header), filename, host.sha256 content, "passed", v.version⟩ := by
  simp only [checkedImport, hcsv, if_true, bind_eq_ok, ensure_eq_ok, exists_const, pure_eq_ok,
    refuseFirst_eq_ok]
  constructor
  · rintro ⟨rows, hrows, ⟨header, data⟩, hparse, rfl, hlength, u, htypes, domains, hdomains, issues,
      hissues, rfl, rfl⟩
    obtain rfl := keyDomainsOf_eq_ok hdomains
    obtain ⟨hsound, hcovers⟩ := validateRateTable_eq_nil.mp hissues
    exact ⟨rows, data, hrows, hparse, hlength, htypes, hdomains, hsound, hcovers, rfl⟩
  · rintro ⟨rows, data, hrows, hparse, hlength, htypes, hdomains, hsound, hcovers, rfl⟩
    exact ⟨rows, hrows, (v.header, data), hparse, rfl, hlength, ⟨⟩, htypes, _, hdomains, [],
      validateRateTable_eq_nil.mpr ⟨hsound, hcovers⟩, rfl, rfl⟩

/-! ## The previewed diff -/

theorem cellValue_congr {name : String} (h : row'.get? name = row.get? name) :
    cellValue name row' = cellValue name row := by
  rw [cellValue, cellValue, h]

theorem rowKey_congr (h : Agree names row' row) : rowKey names row' = rowKey names row := by
  induction names with
  | nil => rfl
  | cons name names ih =>
    have hrest := ih fun c hc => h c (List.mem_cons_of_mem _ hc)
    rw [rowKey] at hrest ⊢
    rw [rowKey, List.mapM_cons, List.mapM_cons, h name List.mem_cons_self, hrest]
    rfl

theorem indexRows_congr (h : List.Forall₂ (Agree v.header) rows' rows) :
    indexRows v.keyNames v.value.name rows' = indexRows v.keyNames v.value.name rows := by
  induction h with
  | nil => rfl
  | cons hrow _ ih =>
    rw [indexRows] at ih ⊢
    rw [indexRows, List.mapM_cons, List.mapM_cons, ih, rowKey_congr (hrow.subset keyNames_subset),
      cellValue_congr (hrow _ valueName_mem)]
    rfl

theorem cellValue_of_valueIssue {engine : Engine} {value : RateTableValue} {key : KeyTuple}
    (h : valueIssue engine value key row = none) : ∃ q, cellValue value.name row = .ok q := by
  rw [valueIssue] at h
  cases hraw : row.get? value.name with
  | none =>
    rw [hraw] at h
    cases h
  | some raw =>
    cases hnumber : (parse raw).bind Number.toRat? with
    | some q => exact ⟨q, bind_eq_ok.mpr ⟨raw, require_eq_ok.mpr hraw, require_eq_ok.mpr hnumber⟩⟩
    | none =>
      rw [hraw] at h
      simp only at h
      cases hparse : parse raw with
      | none =>
        rw [hparse] at h
        split_ifs at h
      | some number =>
        rw [hparse, Option.bind_some] at hnumber
        rw [hparse] at h
        simp only [hnumber] at h
        split_ifs at h

theorem indexRows_ok {engine : Engine} (h : Sound engine v.keyNames v.value rows) :
    ∃ index, indexRows v.keyNames v.value.name rows = .ok index := by
  refine exists_mapM_ok fun row hrow => ?_
  obtain ⟨key, hkey⟩ := h.keyed row hrow
  obtain ⟨q, hq⟩ := cellValue_of_valueIssue (h.values row hrow key hkey)
  exact ⟨(key, q), bind_eq_ok.mpr ⟨key, rowKey_eq_ok.mpr hkey, bind_eq_ok.mpr ⟨q, hq, rfl⟩⟩⟩

theorem diffCells_agree {engine : Engine} (h : List.Forall₂ (Agree v.header) rows' rows)
    (hs : Sound engine v.keyNames v.value rows) : diffCells rows rows' v = .ok [] := by
  obtain ⟨index, hindex⟩ := indexRows_ok hs
  have hindex' := (indexRows_congr h).trans hindex
  simp only [diffCells, bind_eq_ok, pure_eq_ok]
  refine ⟨index, hindex, index, hindex', ?_⟩
  simp

/-! ## The round trip -/

/-- A version whose cells pass the check of a save. Cells in a blob are not read. -/
def Valid (engine : Engine) (v : RateTableVersion) : Prop :=
  ∀ rows, v.cells = .rows rows → validateResult engine v rows = .ok ⟨⟩

/-- The import of a version's own export succeeds with its cells and an empty diff. -/
def RoundTrips (host : Host) (v : RateTableVersion) : Prop :=
  ∃ content rows, exportToCsv host v = .ok content ∧ v.rowsOf = .ok rows ∧
    ∀ filename, isCsv filename = true →
      (∃ result, importConfirmed host v content filename = .ok result ∧
        List.Forall₂ (Agree v.header) result.cells rows) ∧
      ∃ preview, importFromCsv host v content filename = .ok preview ∧ preview.diff = ⟨0, none⟩

/-- Every CSV file accepted against a version has no key twice, and without a default row it has
every key of the version. -/
def AcceptsWhole (host : Host) (v : RateTableVersion) : Prop :=
  ∀ content filename result, isCsv filename = true →
    importConfirmed host v content filename = .ok result →
    (result.cells.map (keyOf v.keyNames)).Nodup ∧
      (v.defaultRow = none → ∀ rows, v.rowsOf = .ok rows →
        ∀ row ∈ rows, keyOf v.keyNames row ∈ result.cells.map (keyOf v.keyNames))

/-- Inline rows, with key values of the declared types and texts that pass the CSV writer and
reader. -/
structure Portable (host : Host) (v : RateTableVersion) (rows : List CellRow) : Prop where
  inline : v.cells = .rows rows
  typed : ∀ key ∈ v.keys, key.type ≠ .string → ∀ row ∈ rows, ∀ raw,
    row.get? key.name = some raw → valueMatchesKeyType host raw key.type = true
  header : ∀ column ∈ v.header, Csv.Clean host.quotesReturn column.toList
  texts : ∀ row ∈ rows, ∀ column ∈ v.header, ∀ text, row.get? column = some text →
    Csv.Clean host.quotesReturn text.toList

theorem rowsOf_eq_ok : v.rowsOf = .ok rows ↔ v.cells = .rows rows := by
  rw [RateTableVersion.rowsOf]
  cases v.cells <;> simp

theorem acceptsWhole (host : Host) (v : RateTableVersion) : AcceptsWhole host v := by
  intro content filename result hcsv hresult
  obtain ⟨rows, data, hrows, -, -, -, hdomains, hsound, hcovers, rfl⟩ :=
    (checkedImport_eq_ok hcsv).mp hresult
  refine ⟨hsound.nodup, fun hdefault rows' hrows' row hrow => ?_⟩
  obtain rfl := Except.ok.inj (hrows.symm.trans hrows')
  obtain ⟨columns, hcolumns, -⟩ := bind_eq_ok.mp hdomains
  -- a row of the version has a level in every key column, so its key is one of the product
  have hkey : ∃ key ∈ (v.keyNames.map (levels rows)).sections, keyOf v.keyNames row = some key := by
    have hlevel : ∀ name ∈ v.keyNames, ∃ level, row.get? name = some level := by
      intro name hname
      obtain ⟨k, hk, rfl⟩ := List.mem_map.mp hname
      obtain ⟨column, hcolumn⟩ := exists_mapM_ok_iff.mp ⟨columns, hcolumns⟩ k hk
      obtain ⟨level, hlevel⟩ := exists_mapM_ok_iff.mp ⟨column, hcolumn⟩ row hrow
      exact ⟨level, require_eq_ok.mp hlevel⟩
    simp only [List.mem_sections]
    generalize v.keyNames = names at hlevel
    induction names with
    | nil => exact ⟨[], .nil, rfl⟩
    | cons name names ih =>
      obtain ⟨level, hl⟩ := hlevel name List.mem_cons_self
      obtain ⟨key, hmem, hkey⟩ := ih fun n hn => hlevel n (List.mem_cons_of_mem _ hn)
      refine ⟨level :: key, .cons (List.mem_filterMap.mpr ⟨row, hrow, hl⟩) hmem, ?_⟩
      rw [keyOf] at hkey ⊢
      rw [List.mapM_cons, hl, hkey]
      rfl
  obtain ⟨key, hmem, hkey⟩ := hkey
  rw [hkey]
  exact hcovers hdefault key hmem

theorem exportToCsv_eq_ok {content : ByteArray} : exportToCsv host v = .ok content ↔
    ∃ rows lines, v.rowsOf = .ok rows ∧
      List.Forall₂ (fun row line => keyOf v.header row = some line) rows lines ∧
      content = (csvText host (v.header :: lines)).toUTF8 := by
  simp only [exportToCsv, bind_eq_ok, mapM_eq_ok, pure_eq_ok, cellsOf_eq_ok]
  constructor
  · rintro ⟨rows, hrows, lines, hlines, rfl⟩
    exact ⟨rows, lines, hrows, hlines, rfl⟩
  · rintro ⟨rows, lines, hrows, hlines, rfl⟩
    exact ⟨rows, hrows, lines, hlines, rfl⟩

theorem exists_line {engine : Engine} (h : Sound engine v.keyNames v.value rows)
    (hrow : row ∈ rows) : ∃ line, keyOf v.header row = some line := by
  obtain ⟨key, hkey⟩ := h.keyed row hrow
  obtain ⟨q, hq⟩ := cellValue_of_valueIssue (h.values row hrow key hkey)
  obtain ⟨raw, hraw, -⟩ := bind_eq_ok.mp hq
  have hcolumn : ∀ column ∈ v.header, ∃ text, row.get? column = some text := by
    intro column hc
    rcases List.mem_append.mp hc with hc | hc
    · exact get?_of_keyOf hkey hc
    · rw [List.mem_singleton.mp hc]
      exact ⟨raw, require_eq_ok.mp hraw⟩
  generalize v.header = header at hcolumn
  induction header with
  | nil => exact ⟨[], rfl⟩
  | cons name names ih =>
    obtain ⟨text, ht⟩ := hcolumn name List.mem_cons_self
    obtain ⟨line, hl⟩ := ih fun n hn => hcolumn n (List.mem_cons_of_mem _ hn)
    refine ⟨text :: line, ?_⟩
    rw [keyOf] at hl ⊢
    rw [List.mapM_cons, ht, hl]
    rfl

theorem exists_lines {engine : Engine} (h : Sound engine v.keyNames v.value rows) :
    ∃ lines, List.Forall₂ (fun row line => keyOf v.header row = some line) rows lines := by
  have hline : ∀ row ∈ rows, ∃ line, keyOf v.header row = some line := fun row hrow =>
    exists_line h hrow
  clear h
  induction rows with
  | nil => exact ⟨[], .nil⟩
  | cons row rows ih =>
    obtain ⟨line, hl⟩ := hline row List.mem_cons_self
    obtain ⟨lines, hls⟩ := ih fun r hr => hline r (List.mem_cons_of_mem _ hr)
    exact ⟨line :: lines, .cons hl hls⟩

theorem forall₂_dictZip {lines : List (List String)}
    (h : List.Forall₂ (fun row line => keyOf v.header row = some line) rows lines) :
    List.Forall₂ (Agree v.header) (lines.map (dictZip v.header)) rows := by
  induction h with
  | nil => exact .nil
  | cons hline _ ih => exact .cons (dictZip_agree hline) ih

theorem header_ne_nil : v.header ≠ [] := by simp [RateTableVersion.header]

theorem Portable.roundTrips (hvalid : Valid host.engine v) (h : Portable host v rows) :
    RoundTrips host v := by
  obtain ⟨hsound, hcovers⟩ := validateResult_eq_ok.mp (hvalid rows h.inline)
  have hrows := rowsOf_eq_ok.mpr h.inline
  obtain ⟨lines, hlines⟩ := exists_lines hsound
  have hagree := forall₂_dictZip hlines
  have hread : Csv.readRows (Csv.write host.quotesReturn (chars (v.header :: lines))) =
      some (chars (v.header :: lines)) := by
    have hall : ∀ line ∈ v.header :: lines, line ≠ [] ∧
        ∀ text ∈ line, Csv.Clean host.quotesReturn text.toList := by
      intro line hline
      rcases List.mem_cons.mp hline with rfl | hline
      · exact ⟨header_ne_nil, h.header⟩
      · obtain ⟨row, hrow, hkey⟩ := exists_of_forall₂ hlines.flip hline
        refine ⟨fun he => (@header_ne_nil v) (List.length_eq_zero_iff.mp ?_), fun text ht => ?_⟩
        · rw [← length_keyOf hkey, he, List.length_nil]
        · obtain ⟨column, hcolumn, hget⟩ := mem_keyOf hkey ht
          exact h.texts row hrow column hcolumn text hget
    refine Csv.readRows_write ?_ ?_
    · intro row hrow
      obtain ⟨line, hline, rfl⟩ := List.mem_map.mp hrow
      exact fun he => (hall line hline).1 (List.map_eq_nil_iff.mp he)
    · intro row hrow field hfield
      obtain ⟨line, hline, rfl⟩ := List.mem_map.mp hrow
      obtain ⟨text, htext, rfl⟩ := List.mem_map.mp hfield
      exact (hall line hline).2 text htext
  refine ⟨_, rows, exportToCsv_eq_ok.mpr ⟨rows, lines, hrows, hlines, rfl⟩, hrows,
    fun filename hcsv => ?_⟩
  have himport : checkedImport host v (csvText host (v.header :: lines)).toUTF8 filename = .ok
      ⟨lines.map (dictZip v.header), filename,
        host.sha256 (csvText host (v.header :: lines)).toUTF8, "passed", v.version⟩ := by
    refine (checkedImport_eq_ok hcsv).mpr ⟨rows, lines, hrows, parseCsv_csvText_ok hread, ?_, ?_,
      keyDomainsOf_sound hsound, sound_congr hagree hsound, fun hdefault => ?_, rfl⟩
    · intro line hline
      obtain ⟨row, -, hkey⟩ := exists_of_forall₂ hlines.flip hline
      exact length_keyOf hkey
    · refine checkImportTypes_eq_ok.mpr fun key hkey htype cell hcell => ?_
      obtain ⟨row, hrow, ha⟩ := exists_of_forall₂ hagree hcell
      obtain ⟨k, hk⟩ := hsound.keyed row hrow
      have hname := List.mem_map_of_mem (f := RateTableKey.name) hkey
      obtain ⟨raw, hraw⟩ := get?_of_keyOf hk hname
      exact ⟨raw, (ha _ (keyNames_subset hname)).trans hraw, h.typed key hkey htype row hrow raw hraw⟩
    · rw [Covers, map_keyOf_congr hagree keyNames_subset]
      exact hcovers hdefault
  refine ⟨⟨_, himport, hagree⟩, ?_⟩
  refine ⟨_, bind_eq_ok.mpr ⟨_, himport, bind_eq_ok.mpr ⟨rows, hrows, bind_eq_ok.mpr ⟨[],
    diffCells_agree hagree hsound, rfl⟩⟩⟩, rfl⟩

theorem forall₂_getElem? {α β : Type*} {R : α → β → Prop} {l : List α} {l' : List β}
    (h : List.Forall₂ R l l') {i : ℕ} {a : α} (ha : l[i]? = some a) :
    ∃ b, l'[i]? = some b ∧ R a b := by
  induction h generalizing i with
  | nil => cases ha
  | cons hab _ ih =>
    cases i with
    | zero =>
      cases ha
      exact ⟨_, rfl, hab⟩
    | succ i => exact ih ha

theorem value_of_line {texts : List String} {text : String}
    (h : keyOf v.header row = some (texts ++ [text])) : row.get? v.value.name = some text := by
  have hlen := length_keyOf h
  rw [← dictZip_agree h _ valueName_mem, RateTableVersion.header]
  refine dictZip_last ?_
  simpa [RateTableVersion.header] using hlen.symm

/-- The lines of an accepted file are not cut: a line of full length that is cut has another value
than its row. -/
theorem not_cut {lines data : List (List String)} {line fileLine : List String} {i : ℕ}
    (hagree : List.Forall₂ (Agree v.header) (data.map (dictZip v.header)) rows)
    (hlines : List.Forall₂ (fun row line => keyOf v.header row = some line) rows lines)
    (hlength : ∀ line ∈ data, line.length = v.header.length) (hline : lines[i]? = some line)
    (hfile : data[i]? = some fileLine)
    (hcut : Csv.Cut (line.map String.toList) (fileLine.map String.toList)) : False := by
  obtain ⟨row, hrow, hkey⟩ := forall₂_getElem? hlines.flip hline
  have hmapped : (data.map (dictZip v.header))[i]? = some (dictZip v.header fileLine) := by
    rw [List.getElem?_map, hfile, Option.map_some]
  obtain ⟨row', hrow', ha⟩ := forall₂_getElem? hagree hmapped
  obtain rfl := Option.some.inj (hrow.symm.trans hrow')
  have hfull := hlength fileLine (List.mem_of_getElem? hfile)
  have hne : line.map String.toList ≠ [] := by
    intro he
    have hlen := length_keyOf hkey
    rw [List.map_eq_nil_iff.mp he] at hlen
    exact (@header_ne_nil v) (List.length_eq_zero_iff.mp hlen.symm)
  obtain ⟨before, f, f', hf, hf', hdiffer⟩ := hcut.last hne (by
    rw [List.length_map, List.length_map, hfull, length_keyOf hkey])
  obtain ⟨texts, last, rfl, -, hlast⟩ := List.map_eq_append_iff.mp hf
  obtain ⟨texts', last', rfl, -, hlast'⟩ := List.map_eq_append_iff.mp hf'
  obtain ⟨text, rfl, rfl⟩ := List.map_eq_singleton_iff.mp hlast
  obtain ⟨text', rfl, rfl⟩ := List.map_eq_singleton_iff.mp hlast'
  have hvalue := (ha _ valueName_mem).trans (value_of_line hkey)
  rw [RateTableVersion.header, dictZip_last (by simpa [RateTableVersion.header] using hfull.symm)]
    at hvalue
  exact hdiffer (congrArg String.toList (Option.some.inj hvalue))

theorem mem_of_keyOf (h : keyOf header row = some line) {column text : String}
    (hcolumn : column ∈ header) (htext : row.get? column = some text) : text ∈ line := by
  induction header generalizing line with
  | nil => cases hcolumn
  | cons name names ih =>
    obtain ⟨c, rest, hc, hrest, rfl⟩ := keyOf_cons_eq_some.mp h
    rcases List.mem_cons.mp hcolumn with rfl | hcolumn
    · obtain rfl := Option.some.inj (hc.symm.trans htext)
      exact List.mem_cons_self
    · exact List.mem_cons_of_mem _ (ih hrest hcolumn)

theorem RoundTrips.portable (h : RoundTrips host v) :
    ∃ rows, Portable host v rows := by
  obtain ⟨content, rows, hexport, hrows, himport⟩ := h
  obtain ⟨⟨result, hresult, hagree⟩, -⟩ := himport ".csv" (by decide)
  obtain ⟨rows', lines, hrows', hlines, rfl⟩ := exportToCsv_eq_ok.mp hexport
  obtain rfl := Except.ok.inj (hrows.symm.trans hrows')
  obtain ⟨rows', data, hrows', hparse, hlength, htypes, -, -, -, rfl⟩ :=
    (checkedImport_eq_ok (by decide)).mp hresult
  obtain rfl := Except.ok.inj (hrows.symm.trans hrows')
  have hread := parseCsv_csvText hparse
  -- a text that is not clean cuts a row, and neither the header nor a row of the file is cut
  have hclean : ∀ line ∈ v.header :: lines, ∀ text ∈ line,
      Csv.Clean host.quotesReturn text.toList := by
    by_contra hdirty
    push Not at hdirty
    obtain ⟨line, hline, text, htext, hbad⟩ := hdirty
    have hne : ∀ row ∈ chars (v.header :: lines), row ≠ [] := by
      intro row hrow he
      obtain ⟨l, hl, rfl⟩ := List.mem_map.mp hrow
      have hnil := List.map_eq_nil_iff.mp he
      rcases List.mem_cons.mp hl with rfl | hl
      · exact header_ne_nil hnil
      · obtain ⟨row, -, hkey⟩ := exists_of_forall₂ hlines.flip hl
        have := length_keyOf hkey
        rw [hnil] at this
        exact (@header_ne_nil v) (List.length_eq_zero_iff.mp this.symm)
    obtain ⟨i, row, cut, hrow, hcut, his⟩ := Csv.readRows_write_dirty hne
      ⟨_, List.mem_map_of_mem hline, _, List.mem_map_of_mem htext, hbad⟩ hread
    cases i with
    | zero =>
      cases hrow
      cases hcut
      exact his.ne (hne _ List.mem_cons_self) rfl
    | succ i =>
      rw [chars, List.getElem?_map, Option.map_eq_some_iff] at hrow hcut
      obtain ⟨line, hline, rfl⟩ := hrow
      obtain ⟨fileLine, hfile, rfl⟩ := hcut
      exact not_cut hagree hlines hlength hline hfile his
  refine ⟨rows, rowsOf_eq_ok.mp hrows, ?_, fun column hc => hclean _ List.mem_cons_self column hc, ?_⟩
  · intro key hkey htype row hrow raw hraw
    obtain ⟨cell, hcell, ha⟩ := exists_of_forall₂ hagree.flip hrow
    obtain ⟨raw', hraw', hmatch⟩ := checkImportTypes_eq_ok.mp htypes key hkey htype cell hcell
    rw [ha _ (keyNames_subset (List.mem_map_of_mem hkey)), hraw] at hraw'
    exact Option.some.inj hraw' ▸ hmatch
  · intro row hrow column hcolumn text htext
    obtain ⟨line, hline, hkey⟩ := exists_of_forall₂ hlines hrow
    exact hclean line (List.mem_cons_of_mem _ hline) text (mem_of_keyOf hkey hcolumn htext)

/-- A valid version round-trips, and every accepted file is whole, exactly where the version is
portable. -/
theorem roundTrips_iff (host : Host) (v : RateTableVersion) (hvalid : Valid host.engine v) :
    (RoundTrips host v ∧ AcceptsWhole host v) ↔ ∃ rows, Portable host v rows := by
  constructor
  · rintro ⟨h, -⟩
    exact h.portable
  · rintro ⟨rows, h⟩
    exact ⟨h.roundTrips hvalid, acceptsWhole host v⟩

/-! ## A table of relativities by age -/

/-- An engine that reads the literal 1. -/
def literalEngine : Engine where
  binds _ := true
  evaluate text _ := if text = "1" then some (.int 1) else none
  decide _ _ _ := some none
  reads _ := ∅
  evaluate_congr _ _ _ _ := rfl
  decide_congr _ _ _ _ _ := rfl

def literalHost : Host := ⟨literalEngine, fun _ => false, true, fun _ => .error .unreadable, fun _ => ""⟩

def ageRow (level : String) : CellRow := (Dict.empty.insert "age" level).insert "rel" "1"

def ageTable (type : KeyType) (level : String) : RateTableVersion :=
  ⟨"age", 1, true, [⟨"age", type, none, none⟩], ⟨"rel", .relativity, "factor", none, none⟩, none,
    .rows [ageRow level], "", none, .seed⟩

theorem valid_ageTable (type : KeyType) : Valid literalEngine (ageTable type "young") := by
  intro rows h
  cases h
  refine validateResult_eq_ok.mpr ⟨⟨?_, ?_, ?_⟩, fun _ => ?_⟩
  · intro row hrow
    rw [List.mem_singleton.mp hrow]
    exact ⟨["young"], rfl⟩
  · exact List.nodup_singleton _
  · intro row hrow key hkey
    rw [List.mem_singleton.mp hrow] at hkey ⊢
    cases hkey
    cases type <;> decide
  · rw [Covers]
    cases type <;> decide

/-- A table of a text key round-trips. -/
theorem ageTable_roundTrips : RoundTrips literalHost (ageTable .string "young") ∧
    AcceptsWhole literalHost (ageTable .string "young") := by
  refine (roundTrips_iff literalHost _ (valid_ageTable .string)).mpr
    ⟨[ageRow "young"], rfl, ?_, ?_, ?_⟩
  · intro key hkey htype
    rw [List.mem_singleton.mp hkey] at htype
    exact absurd rfl htype
  · have hall : ∀ column ∈ (ageTable .string "young").header,
        column.toList.length ≤ Csv.fieldLimit ∧ '\r' ∉ column.toList := by decide
    exact fun column hc => ⟨(hall column hc).1, fun hr => absurd hr (hall column hc).2⟩
  · intro row hrow column hcolumn text htext
    rw [List.mem_singleton.mp hrow] at htext
    have hall : ∀ column ∈ (ageTable .string "young").header,
        ∀ text ∈ ((ageRow "young").get? column).toList,
          text.toList.length ≤ Csv.fieldLimit ∧ '\r' ∉ text.toList := by decide
    have htexts := hall column hcolumn text (Option.mem_toList.mpr htext)
    exact ⟨htexts.1, fun hr => absurd hr htexts.2⟩

/-- A valid table of a whole-number key that holds another text is not imported again. -/
theorem intTable_not_roundTrips : ¬ ∀ host v, Valid host.engine v →
    RoundTrips host v ∧ AcceptsWhole host v := by
  intro h
  obtain ⟨rows, hrows⟩ := (h literalHost _ (valid_ageTable .int)).1.portable
  cases hrows.inline
  have hmatch := hrows.typed _ List.mem_cons_self (by decide) _ List.mem_cons_self "young" (by decide)
  exact absurd hmatch (by decide)

end GiPricing.RateTables
