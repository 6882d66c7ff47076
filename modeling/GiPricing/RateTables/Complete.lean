import GiPricing.RateTables.Derived

/-! # Completeness over runs

A version without a default row has one row for each key of the product of its own levels. Every
write keeps this but an import, which is checked against the levels of its base.
-/

namespace GiPricing.RateTables

open Failure Transition

variable {engine : Engine} {host : Host} {t t' : Table} {w : Write}
  {base derived stored v : RateTableVersion} {rows rows' : List CellRow} {names : List String}
  {row : CellRow} {value : RateTableValue} {keys : List RateTableKey}

/-! ## The product of the levels -/

/-- The cells of a version are sound, and their keys are the product of their own levels. -/
def Complete (engine : Engine) (v : RateTableVersion) : Prop :=
  ∃ rows, v.cells = .rows rows ∧ Sound engine v.keyNames v.value rows ∧
    ∀ key, some key ∈ rows.map (keyOf v.keyNames) ↔ key ∈ (v.keyNames.map (levels rows)).sections

theorem keyOf_mem_sections {key : KeyTuple} (hrow : row ∈ rows) (h : keyOf names row = some key) :
    key ∈ (names.map (levels rows)).sections := by
  rw [List.mem_sections]
  induction names generalizing key with
  | nil => cases h; exact List.Forall₂.nil
  | cons name names ih =>
    obtain ⟨level, rest, hlevel, hrest, rfl⟩ := keyOf_cons_eq_some.mp h
    exact List.Forall₂.cons (List.mem_filterMap.mpr ⟨row, hrow, hlevel⟩) (ih hrest)

theorem complete_iff_covers (hcells : v.cells = .rows rows) : Complete engine v ↔
    Sound engine v.keyNames v.value rows ∧ Covers (levels rows) v.keyNames rows := by
  constructor
  · rintro ⟨rows', hcells', hsound, hkeys⟩
    obtain rfl : rows' = rows := Storage.rows.inj (hcells'.symm.trans hcells)
    exact ⟨hsound, fun key hkey => (hkeys key).mpr hkey⟩
  · rintro ⟨hsound, hcovers⟩
    refine ⟨rows, hcells, hsound, fun key => ⟨fun hkey => ?_, hcovers key⟩⟩
    obtain ⟨row, hrow, hkeyOf⟩ := List.mem_map.mp hkey
    exact keyOf_mem_sections hrow hkeyOf

theorem covers_single {name : String} : Covers (levels rows) [name] rows := by
  intro key hkey
  rw [List.mem_sections] at hkey
  obtain ⟨level, rest, hlevel, hrest, rfl⟩ := List.forall₂_cons_right_iff.mp hkey
  cases hrest
  obtain ⟨row, hrow, hget⟩ := List.mem_filterMap.mp hlevel
  refine List.mem_map.mpr ⟨row, hrow, ?_⟩
  simp only [keyOf, List.mapM_cons, hget]
  rfl

theorem levels_congr (h : List.Forall₂ (Agree names) rows' rows) {name : String}
    (hname : name ∈ names) : levels rows' name = levels rows name := by
  induction h with
  | nil => rfl
  | cons hagree _ ih =>
    simp only [levels, List.filterMap_cons, hagree name hname] at ih ⊢
    rw [ih]

theorem covers_levels_congr (h : List.Forall₂ (Agree names) rows' rows) :
    Covers (levels rows') names rows' ↔ Covers (levels rows) names rows := by
  have hlevels : names.map (levels rows') = names.map (levels rows) :=
    List.map_congr_left fun name hname => levels_congr h hname
  rw [Covers, Covers, hlevels, map_keyOf_congr h (List.Subset.refl _)]

theorem agree_keyNames (h : List.Forall₂ (Agree v.header) rows' rows) :
    List.Forall₂ (Agree v.keyNames) rows' rows := h.imp fun _ _ hagree => hagree.subset keyNames_subset

theorem Stores.complete (h : Stores derived stored) (hcells : derived.cells = .rows rows)
    (hsound : Sound engine derived.keyNames derived.value rows) :
    Complete engine stored ↔ Covers (levels rows) derived.keyNames rows := by
  obtain ⟨rows', rows'', hrows', hstored, hagree⟩ := h.cells
  obtain rfl : rows' = rows := Storage.rows.inj (hrows'.symm.trans hcells)
  rw [complete_iff_covers hstored, h.definition]
  exact (and_iff_right (sound_congr hagree hsound)).trans (covers_levels_congr (agree_keyNames hagree))

/-! ## Coverage and the refusal -/

theorem valueIssue_ne_incomplete {key key' : KeyTuple} :
    valueIssue engine value key row ≠ some (.incompleteKeyDomain key') := by
  rw [valueIssue]
  repeat' split
  all_goals rintro ⟨⟩

theorem scan_covers {issues : List ValidationIssue} {seen seen' : List KeyTuple}
    (h : scan engine names value rows seen = .ok (issues, seen')) :
    (∀ key ∈ seen, key ∈ seen') ∧ (∀ key, some key ∈ rows.map (keyOf names) → key ∈ seen') ∧
      ∀ key, .incompleteKeyDomain key ∉ issues := by
  induction rows generalizing seen issues with
  | nil =>
    cases h
    exact ⟨fun _ hkey => hkey, by rintro key ⟨⟩, by rintro key ⟨⟩⟩
  | cons row rows ih =>
    simp only [scan, bind_eq_ok, rowKey_eq_ok] at h
    obtain ⟨key, hkey, h⟩ := h
    split_ifs at h with hseen
    · obtain ⟨⟨rest, s⟩, hscan, h⟩ := bind_eq_ok.mp h
      cases h
      obtain ⟨hkept, hrows, hissues⟩ := ih hscan
      refine ⟨hkept, fun k hk => ?_, fun k hk => ?_⟩
      · rw [List.map_cons, List.mem_cons, hkey] at hk
        rcases hk with he | hk
        · cases he
          exact hkept key hseen
        · exact hrows k hk
      · rcases List.mem_cons.mp hk with he | hk
        · cases he
        · exact hissues k hk
    · obtain ⟨⟨rest, s⟩, hscan, h⟩ := bind_eq_ok.mp h
      cases h
      obtain ⟨hkept, hrows, hissues⟩ := ih hscan
      refine ⟨fun k hk => hkept k (List.mem_cons_of_mem _ hk), fun k hk => ?_, fun k hk => ?_⟩
      · rw [List.map_cons, List.mem_cons, hkey] at hk
        rcases hk with he | hk
        · cases he
          exact hkept key List.mem_cons_self
        · exact hrows k hk
      · rcases List.mem_append.mp hk with hk | hk
        · exact valueIssue_ne_incomplete (Option.mem_toList.mp hk)
        · exact hissues k hk

theorem validateRateTable_covers {issues : List ValidationIssue} {domains : String → List String}
    {defaultRow : Option CellRow}
    (h : validateRateTable engine rows keys value domains defaultRow = .ok issues)
    (hcovers : defaultRow = none → Covers domains (keys.map RateTableKey.name) rows)
    (key : KeyTuple) : .incompleteKeyDomain key ∉ issues := by
  simp only [validateRateTable, bind_eq_ok, pure_eq_ok] at h
  obtain ⟨⟨issues, seen⟩, hscan, rfl⟩ := h
  obtain ⟨-, hseen, hissues⟩ := scan_covers hscan
  intro hkey
  rcases List.mem_append.mp hkey with hkey | hkey
  · exact hissues key hkey
  · obtain ⟨missing, hmissing, -⟩ := List.mem_map.mp hkey
    split_ifs at hmissing with hdefault
    · obtain ⟨hsection, hnot⟩ := List.mem_filter.mp hmissing
      have hrows := hcovers (Option.isNone_iff_eq_none.mp hdefault) missing hsection
      exact absurd (hseen missing hrows) (by simpa using hnot)
    · cases hmissing

theorem refuseFirst_eq_error {issues : List ValidationIssue} {e : Refusal}
    (h : refuseFirst issues = .error e) : ∃ issue ∈ issues, e = .invalid issue := by
  cases issues with
  | nil => cases h
  | cons issue issues =>
    cases h
    exact ⟨issue, List.mem_cons_self, rfl⟩

theorem rowKey_eq_error {e : Refusal} (h : rowKey names row = .error e) : ∃ key, e = .lacksKey key := by
  obtain ⟨-, name, -, -, -, hname⟩ := mapM_eq_error.mp h
  exact ⟨name, (require_eq_error.mp hname).2.symm⟩

theorem scan_eq_error {seen : List KeyTuple} {e : Refusal}
    (h : scan engine names value rows seen = .error e) : ∃ key, e = .lacksKey key := by
  induction rows generalizing seen with
  | nil => cases h
  | cons row rows ih =>
    simp only [scan] at h
    rcases bind_eq_error.mp h with h | ⟨key, -, h⟩
    · exact rowKey_eq_error h
    · split_ifs at h
      all_goals
        rcases bind_eq_error.mp h with h | ⟨_, -, h⟩
        · exact ih h
        · cases h

theorem validateResult_ne_incomplete
    (hcovers : v.defaultRow = none → Covers (levels rows) v.keyNames rows) (key : KeyTuple) :
    validateResult engine v rows ≠ .error (.invalid (.incompleteKeyDomain key)) := by
  intro h
  rcases bind_eq_error.mp h with h | ⟨domains, hdomains, h⟩
  · rcases bind_eq_error.mp h with h | ⟨_, -, h⟩
    · obtain ⟨-, column, -, -, -, h⟩ := mapM_eq_error.mp h
      obtain ⟨-, row, -, -, -, h⟩ := mapM_eq_error.mp h
      cases (require_eq_error.mp h).2
    · cases h
  · obtain rfl := keyDomainsOf_eq_ok hdomains
    rcases bind_eq_error.mp h with h | ⟨issues, hissues, h⟩
    · rcases bind_eq_error.mp h with h | ⟨_, -, h⟩
      · obtain ⟨_, he⟩ := scan_eq_error h
        cases he
      · cases h
    · obtain ⟨issue, hissue, he⟩ := refuseFirst_eq_error h
      cases he
      exact validateRateTable_covers hissues hcovers key hissue

/-! ## What each write keeps -/

/-- The operation changes no key column of any row. -/
def ChangesValues (base : RateTableVersion) (op : BulkOperation) : Prop :=
  ∃ rows moved, base.cells = .rows rows ∧ op.rows base rows = .ok moved ∧
    List.Forall₂ (Agree base.keyNames) (moved.map Prod.fst) rows

/-- Every version without a default row is complete, and an operation that changes only values is
not refused for coverage. -/
structure KeepsComplete (host : Host) (t : Table) (w : Write) (t' : Table) : Prop where
  complete : ∀ v ∈ t'.versions, v.defaultRow = none → Complete host.engine v
  covered : ∀ number op note base, w = .bulk number op note → t.loadVersion number = .ok base →
    base.defaultRow = none → ChangesValues base op →
    ∀ key, t.save host w ≠ .error (.invalid (.incompleteKeyDomain key))

/-- The rows of a file that is read against a version. -/
def fileRows (host : Host) (content : ByteArray) (filename : String) :
    Except Refusal (List CellRow) := do
  let (header, data) ←
    if isCsv filename then parseCsv content filename else parseXlsx host content filename
  return data.map (dictZip header)

/-- The keys of a file that is imported into a version without a default row are the product of
the file's own levels. -/
def WholeImport (host : Host) (t : Table) (w : Write) (t' : Table) : Prop :=
  ∀ number content filename base rows, w = .importFile number content filename →
    t.save host w = .ok t' → t.loadVersion number = .ok base → base.defaultRow = none →
    fileRows host content filename = .ok rows → Covers (levels rows) base.keyNames rows

theorem persistNewVersion_ne_invalid {issue : ValidationIssue} :
    t.persistNewVersion derived ≠ .error (.invalid issue) := by
  intro h
  rcases bind_eq_error.mp h with h | ⟨rows, -, h⟩
  · rw [RateTableVersion.rowsOf] at h
    split at h <;> cases h
  · rcases bind_eq_error.mp h with h | ⟨lines, -, h⟩
    · obtain ⟨-, row, -, -, -, h⟩ := mapM_eq_error.mp h
      obtain ⟨-, column, -, -, -, h⟩ := mapM_eq_error.mp h
      cases (require_eq_error.mp h).2
    · rcases bind_eq_error.mp h with h | ⟨_, -, h⟩
      · cases (ensure_eq_error.mp h).2
      · cases h

theorem bulk_ne_incomplete {number : ℕ} {op : BulkOperation} {note : String}
    (hbase : t.loadVersion number = .ok base)
    (hcomplete : base.defaultRow = none → Complete host.engine base)
    (hvalues : ChangesValues base op) (key : KeyTuple) :
    t.save host (.bulk number op note) ≠ .error (.invalid (.incompleteKeyDomain key)) := by
  obtain ⟨rows, moved, hcells, hmoved, hagree⟩ := hvalues
  intro h
  rcases bind_eq_error.mp h with h | ⟨base', hbase', h⟩
  · rw [hbase] at h
    cases h
  obtain rfl : base' = base := Except.ok.inj (hbase'.symm.trans hbase)
  rcases bind_eq_error.mp h with h | ⟨derived, -, h⟩
  · rcases bind_eq_error.mp h with h | ⟨_, -, h⟩
    · cases (ensure_eq_error.mp h).2
    rcases bind_eq_error.mp h with h | ⟨rows', hrows, h⟩
    · rw [rowsOf_eq_ok.mpr hcells] at h
      cases h
    obtain rfl : rows' = rows := Except.ok.inj (hrows.symm.trans (rowsOf_eq_ok.mpr hcells))
    rcases bind_eq_error.mp h with h | ⟨moved', hmoved', h⟩
    · rw [hmoved] at h
      cases h
    obtain rfl : moved' = moved := Except.ok.inj (hmoved'.symm.trans hmoved)
    rcases bind_eq_error.mp h with h | ⟨_, -, h⟩
    · refine validateResult_ne_incomplete (fun hdefault => ?_) key h
      exact (covers_levels_congr hagree).mpr
        ((complete_iff_covers hcells).mp (hcomplete hdefault)).2
    · cases h
  · rcases bind_eq_error.mp h with h | ⟨_, -, h⟩
    · cases (ensure_eq_error.mp h).2
    · exact persistNewVersion_ne_invalid h

/-! ## Manual edits -/

/-- What an accepted edit sets: the value of a row of its own key, with no issue. -/
def Fits (engine : Engine) (v : RateTableVersion) (rows : List CellRow) (edit : ℕ × String) : Prop :=
  ∃ row key, (rows.map (keyOf v.keyNames))[edit.1]? = some (some key) ∧
    keyOf v.keyNames row = some key ∧ row.get? v.value.name = some edit.2 ∧
    valueIssue engine v.value key row = none

theorem positionOf_eq_some {base : List (Option KeyTuple)} {key : KeyTuple} {i : ℕ}
    (h : positionOf base key = some i) : base[i]? = some (some key) := by
  obtain ⟨⟨k, j⟩, hlast, rfl⟩ := Option.map_eq_some_iff.mp h
  obtain ⟨hmem, hkey⟩ := List.mem_filter.mp (List.mem_of_getLast? hlast)
  obtain rfl : k = some key := by simpa using hkey
  exact List.mem_zipIdx_iff_getElem?.mp hmem

theorem editTarget_fits {replaced : List (ℕ × String)} {edit : ℕ × String}
    (h : editTarget engine v (rows.map (keyOf v.keyNames)) replaced row = .ok edit) :
    Fits engine v rows edit := by
  simp only [editTarget, bind_eq_ok, ensure_eq_ok, require_eq_ok, exists_const] at h
  obtain ⟨-, key, hkey, i, hi, -, h⟩ := h
  split at h
  · cases h
  · rename_i hissue
    obtain ⟨text, htext, rfl⟩ := map_eq_ok.mp h
    exact ⟨row, key, positionOf_eq_some hi, hkey, require_eq_ok.mp htext, hissue⟩

theorem collectEdits_fits {edits : List (ℕ × CellRow)} {replaced issues : List (ℕ × String)}
    (h : ∀ edit ∈ replaced, Fits engine v rows edit) :
    ∀ edit ∈ (collectEdits engine v (rows.map (keyOf v.keyNames)) edits replaced issues).1,
      Fits engine v rows edit := by
  induction edits generalizing replaced issues with
  | nil => exact h
  | cons edit edits ih =>
    rw [collectEdits]
    split
    · rename_i target htarget
      refine ih fun e he => ?_
      rcases List.mem_append.mp he with he | he
      · exact h e he
      · rw [List.mem_singleton.mp he]
        exact editTarget_fits htarget
    · exact ih h

theorem get?_eq_of_keyOf {row' : CellRow} {key : KeyTuple} (h : keyOf names row = some key)
    (h' : keyOf names row' = some key) {name : String} (hname : name ∈ names) :
    row'.get? name = row.get? name := by
  induction names generalizing key with
  | nil => cases hname
  | cons n names ih =>
    obtain ⟨level, rest, hlevel, hrest, rfl⟩ := keyOf_cons_eq_some.mp h
    obtain ⟨level', rest', hlevel', hrest', he⟩ := keyOf_cons_eq_some.mp h'
    obtain ⟨rfl, rfl⟩ := List.cons.inj he
    rcases List.mem_cons.mp hname with rfl | hname
    · rw [hlevel, hlevel']
    · exact ih hrest hrest' hname

theorem replaceAt_agree {replaced : List (ℕ × String)} {entry : CellRow × ℕ}
    (hfits : ∀ edit ∈ replaced, Fits engine v rows edit) (hentry : rows[entry.2]? = some entry.1) :
    Agree v.keyNames (replaceAt v.value.name replaced entry) entry.1 ∧
      (replaceAt v.value.name replaced entry = entry.1 ∨
        ∃ row key, keyOf v.keyNames row = some key ∧ keyOf v.keyNames entry.1 = some key ∧
          valueIssue engine v.value key row = none ∧
          (replaceAt v.value.name replaced entry).get? v.value.name = row.get? v.value.name) := by
  rw [replaceAt]
  cases hlookup : replaced.lookup entry.2 with
  | none => exact ⟨fun _ _ => rfl, Or.inl rfl⟩
  | some text =>
    obtain ⟨pre, post, hsplit, -⟩ := List.lookup_eq_some_iff.mp hlookup
    have hmem : (entry.2, text) ∈ replaced := by
      rw [hsplit]
      exact List.mem_append_right _ List.mem_cons_self
    obtain ⟨row, key, hbase, hkey, htext, hissue⟩ := hfits _ hmem
    rw [List.getElem?_map, hentry, Option.map_some, Option.some.injEq] at hbase
    refine ⟨fun name hname => ?_, Or.inr ⟨row, key, hkey, hbase, hissue, ?_⟩⟩
    · rw [Dict.get?_insert]
      split_ifs with he
      · rw [← htext, ← he]
        exact (get?_eq_of_keyOf hbase hkey hname)
      · rfl
    · rw [Dict.get?_insert, if_pos rfl, htext]

theorem forall₂_replaceAt {replaced : List (ℕ × String)}
    (hfits : ∀ edit ∈ replaced, Fits engine v rows edit) :
    List.Forall₂ (Agree v.keyNames) (rows.zipIdx.map (replaceAt v.value.name replaced)) rows := by
  have hmap : rows.zipIdx.map Prod.fst = rows := List.zipIdx_map_fst 0 rows
  nth_rewrite 2 [← hmap]
  rw [List.forall₂_map_left_iff, List.forall₂_map_right_iff, List.forall₂_same]
  exact fun entry he => (replaceAt_agree hfits (List.mem_zipIdx_iff_getElem?.mp he)).1

theorem applyCellEdits_sound {edits : List CellRow} (hcells : v.cells = .rows rows)
    (hsound : Sound engine v.keyNames v.value rows)
    (h : applyCellEdits engine v edits = .ok rows') :
    List.Forall₂ (Agree v.keyNames) rows' rows ∧ Sound engine v.keyNames v.value rows' := by
  simp only [applyCellEdits, bind_eq_ok, ensure_eq_ok, exists_const, pure_eq_ok] at h
  obtain ⟨base, hbase, _, -, -, rfl⟩ := h
  obtain rfl : base = rows := Storage.rows.inj ((rowsOf_eq_ok.mp hbase).symm.trans hcells)
  set replaced := (collectEdits engine v (base.map (keyOf v.keyNames))
    (edits.zipIdx.map Prod.swap) [] []).1
  have hfits : ∀ edit ∈ replaced, Fits engine v base edit :=
    collectEdits_fits (by rintro edit ⟨⟩)
  have hentry : ∀ entry ∈ base.zipIdx, base[entry.2]? = some entry.1 := fun entry he =>
    List.mem_zipIdx_iff_getElem?.mp he
  have hagree := forall₂_replaceAt hfits
  refine ⟨hagree, ⟨fun row hrow => ?_, ?_, fun row hrow key hkey => ?_⟩⟩
  · obtain ⟨row', hrow', hag⟩ := exists_of_forall₂ hagree hrow
    rw [hag.keyOf (List.Subset.refl _)]
    exact hsound.keyed row' hrow'
  · rw [map_keyOf_congr hagree (List.Subset.refl _)]
    exact hsound.nodup
  · obtain ⟨entry, he, rfl⟩ := List.mem_map.mp hrow
    obtain ⟨hag, hsame | ⟨edited, key', hedited, hbase', hissue, hvalue⟩⟩ :=
      replaceAt_agree hfits (hentry entry he)
    · rw [hsame] at hkey ⊢
      exact hsound.values _ (List.mem_of_getElem? (hentry entry he)) key hkey
    · rw [hag.keyOf (List.Subset.refl _), hbase'] at hkey
      cases hkey
      rw [valueIssue_congr hvalue]
      exact hissue

/-! ## Every write -/

theorem importConfirmed_eq_ok {content : ByteArray} {filename : String} {result : ImportResult}
    (h : importConfirmed host base content filename = .ok result) :
    fileRows host content filename = .ok result.cells ∧
      Sound host.engine base.keyNames base.value result.cells := by
  obtain ⟨rows, -, h⟩ := bind_eq_ok.mp h
  rw [fileRows]
  split_ifs at h ⊢
  all_goals
    simp only [bind_eq_ok, ensure_eq_ok, exists_const, pure_eq_ok] at h
    obtain ⟨file, hfile, -, -, -, -, domains, -, issues, hissues, _, hfirst, rfl⟩ := h
    rw [refuseFirst_eq_ok.mp hfirst] at hissues
    exact ⟨bind_eq_ok.mpr ⟨file, hfile, rfl⟩, (validateRateTable_eq_nil.mp hissues).1⟩

/-- The cells that a write derives from a complete base are sound. They are complete, and those of
an import where the file is. -/
theorem derive_complete (hcomplete : Complete host.engine base) (hdefault : base.defaultRow = none)
    (h : w.derive host base = .ok derived) :
    ∃ rows, derived.cells = .rows rows ∧
      Sound host.engine derived.keyNames derived.value rows ∧
      (Covers (levels rows) derived.keyNames rows ↔
        ∀ number content filename, w = .importFile number content filename →
          ∀ file, fileRows host content filename = .ok file →
            Covers (levels file) base.keyNames file) := by
  obtain ⟨rows, hcells, hsound, -⟩ := id hcomplete
  have hcovers := ((complete_iff_covers hcells).mp hcomplete).2
  cases w with
  | seed r => cases h
  | bulk version op note =>
    obtain ⟨_, moved, creation, -, -, hvalid, rfl⟩ := applyBulk_eq_ok h
    obtain ⟨hsound', hcovers'⟩ := validateResult_eq_ok.mp hvalid
    exact ⟨_, rfl, hsound', fun _ => by rintro _ _ _ ⟨⟩, fun _ => hcovers' hdefault⟩
  | edit version edits note =>
    obtain ⟨rows', hrows', rfl⟩ := editDerived_eq_ok h
    obtain ⟨hagree, hsound'⟩ := applyCellEdits_sound hcells hsound hrows'
    exact ⟨rows', rfl, hsound', fun _ => by rintro _ _ _ ⟨⟩,
      fun _ => (covers_levels_congr hagree).mpr hcovers⟩
  | importFile version content filename =>
    obtain ⟨result, hresult, rfl⟩ := map_eq_ok.mp h
    obtain ⟨hfile, hsound'⟩ := importConfirmed_eq_ok hresult
    refine ⟨result.cells, rfl, hsound', fun hwhole => ?_, fun hwhole => ?_⟩
    · rintro _ _ _ ⟨⟩ file hfile'
      obtain rfl : result.cells = file := Except.ok.inj (hfile.symm.trans hfile')
      exact hwhole
    · exact hwhole version content filename rfl result.cells hfile

theorem seedFromModel_complete {slug : String} {number : ℕ} {r : SeedRequest}
    (h : seedFromModel engine slug number r = .ok derived) :
    ∃ rows, derived.cells = .rows rows ∧ Sound engine derived.keyNames derived.value rows ∧
      Covers (levels rows) derived.keyNames rows := by
  obtain ⟨_, -, h⟩ := bind_eq_ok.mp h
  obtain ⟨relativities, -, h⟩ := bind_eq_ok.mp h
  obtain ⟨entry, -, h⟩ := bind_eq_ok.mp h
  split at h
  all_goals
    obtain ⟨bound, -, h⟩ := bind_eq_ok.mp h
    simp only [bind_eq_ok, ensure_eq_ok, exists_const, pure_eq_ok] at h
    obtain ⟨-, -, -, issues, hissues, _, hfirst, rfl⟩ := h
    rw [refuseFirst_eq_ok.mp hfirst] at hissues
    exact ⟨_, rfl, (validateRateTable_eq_nil.mp hissues).1, covers_single⟩

/-- All versions of the table without a default row are complete. -/
def AllComplete (engine : Engine) (t : Table) : Prop :=
  ∀ v ∈ t.versions, v.defaultRow = none → Complete engine v

theorem keepsComplete_iff (hall : AllComplete host.engine t) (h : step host t w = some t') :
    KeepsComplete host t w t' ↔ WholeImport host t w t' := by
  have hcovered : ∀ number op note base, w = .bulk number op note → t.loadVersion number = .ok base →
      base.defaultRow = none → ChangesValues base op →
      ∀ key, t.save host w ≠ .error (.invalid (.incompleteKeyDomain key)) := by
    rintro number op note base rfl hbase - hvalues key
    exact bulk_ne_incomplete hbase (hall base (loadVersion_eq_ok hbase).1) hvalues key
  constructor
  · rintro ⟨hkeeps, -⟩ number content filename base file rfl hsave hbase hdefault hfile
    obtain ⟨base', derived, stored, hbase', hderive, -, hstores, rfl⟩ := save_eq_ok rfl hsave
    obtain rfl : base' = base := Except.ok.inj (hbase'.symm.trans hbase)
    obtain ⟨rows, hcells, hsound, hiff⟩ :=
      derive_complete (hall base' (loadVersion_eq_ok hbase).1 hdefault) hdefault hderive
    have hdefault' : stored.defaultRow = none := by
      rw [hstores.definition]
      exact (derive_eq_ok hderive).2.2.1.trans hdefault
    have hstored := hkeeps stored (List.mem_append_right _ List.mem_cons_self) hdefault'
    exact hiff.mp ((hstores.complete hcells hsound).mp hstored) number content filename rfl file hfile
  · intro hwhole
    refine ⟨fun v hv hdefault => ?_, hcovered⟩
    rcases step_cases h with ⟨hsaved, hsave⟩ | ⟨rfl, -⟩
    · cases hsaved with
      | derived base derived stored hversion hbase hderive hseed hstores ht =>
        obtain ⟨base', derived', stored', hbase', hderive', -, hstores', ht'⟩ := save_eq_ok hversion hsave
        rw [ht'] at hv
        rcases List.mem_append.mp hv with hv | hv
        · exact hall v hv hdefault
        obtain rfl := List.mem_singleton.mp hv
        have hbase₀ : base'.defaultRow = none := by
          rw [hstores'.definition] at hdefault
          exact (derive_eq_ok hderive').2.2.1.symm.trans hdefault
        obtain ⟨rows, hcells, hsound, hiff⟩ :=
          derive_complete (hall base' (loadVersion_eq_ok hbase').1 hbase₀) hbase₀ hderive'
        refine (hstores'.complete hcells hsound).mpr (hiff.mpr ?_)
        rintro number content filename rfl file hfile
        cases hversion
        exact hwhole _ content filename base' file rfl hsave hbase' hbase₀ hfile
      | seed r number derived stored hw hderive hstores ht =>
        rw [ht] at hv
        rcases List.mem_append.mp hv with hv | hv
        · exact hall v hv hdefault
        obtain rfl := List.mem_singleton.mp hv
        obtain ⟨rows, hcells, hsound, hcovers⟩ := seedFromModel_complete hderive
        exact (hstores.complete hcells hsound).mpr hcovers
    · exact hall v hv hdefault

/-- Over every run of writes from complete versions, every version stays complete, and no operation
that changes only values is refused for coverage, exactly where each file imported into a version
without a default row is the product of its own levels. -/
theorem completeness_kept_iff (host : Host) (t : Table) (hall : AllComplete host.engine t)
    (ws : List Write) :
    Always (step host) (KeepsComplete host) t ws ↔ Always (step host) (WholeImport host) t ws :=
  @always_congr _ _ (step host) _ _ (AllComplete host.engine) t
    (fun _ _ _ _ _ hkeeps => hkeeps.complete) (fun _ _ _ hs h => keepsComplete_iff hs h) hall ws

theorem wholeImport_of_single {w : Write} (hsingle : ∀ v ∈ t.versions, ∃ key, v.keys = [key]) :
    WholeImport host t w t' := by
  rintro number content filename base file - - hbase - -
  obtain ⟨key, hkey⟩ := hsingle base (loadVersion_eq_ok hbase).1
  rw [RateTableVersion.keyNames, hkey]
  exact covers_single

theorem ageTable_complete : Complete literalEngine (ageTable .string "young") := by
  obtain ⟨hsound, hcovers⟩ := validateResult_eq_ok.mp (valid_ageTable .string _ rfl)
  exact (complete_iff_covers rfl).mpr ⟨hsound, hcovers rfl⟩

theorem ageTable_completeness_kept : Always (step literalHost) (KeepsComplete literalHost)
    ⟨"age", 1, [ageTable .string "young"]⟩ [.importFile 1 ageFile "age.csv"] := by
  refine (completeness_kept_iff literalHost _ ?_ _).mpr fun t' _ => ⟨?_, trivial⟩
  · intro v hv _
    rw [List.mem_singleton.mp hv]
    exact ageTable_complete
  · refine wholeImport_of_single fun v hv => ?_
    rw [List.mem_singleton.mp hv]
    exact ⟨_, rfl⟩

def ageSexRow (age sex : String) : CellRow :=
  ((Dict.empty.insert "age" age).insert "sex" sex).insert "rel" "1"

def ageSexTable : RateTableVersion :=
  ⟨"age", 1, true, [⟨"age", .string, none, none⟩, ⟨"sex", .string, none, none⟩],
    ⟨"rel", .relativity, "factor", none, none⟩, none, .rows [ageSexRow "young" "m"], "", none, .seed⟩

def ageSexFile : ByteArray :=
  (csvText literalHost [["age", "sex", "rel"], ["young", "m", "1"], ["old", "f", "1"]]).toUTF8

theorem sound_ageSex : Sound literalEngine ["age", "sex"] ageSexTable.value
    [ageSexRow "young" "m", ageSexRow "old" "f"] := by
  refine sound_cons.mpr ⟨["young", "m"], by decide, by decide, by decide, ?_⟩
  exact sound_cons.mpr ⟨["old", "f"], by decide, by decide, by decide, sound_nil⟩

theorem ageSexTable_complete : Complete literalEngine ageSexTable := by
  obtain ⟨key, hkey, hvalue, -, -⟩ := sound_cons.mp sound_ageSex
  refine (complete_iff_covers rfl).mpr ⟨sound_cons.mpr ⟨key, hkey, hvalue, ?_, sound_nil⟩, ?_⟩
  · rintro ⟨⟩
  · unfold Covers
    decide

theorem ageSexTable_import : importConfirmed literalHost ageSexTable ageSexFile "age.csv" =
    .ok ⟨[ageSexRow "young" "m", ageSexRow "old" "f"], "age.csv", "", "passed", 1⟩ := by
  obtain ⟨hsound, -⟩ := (complete_iff_covers rfl).mp ageSexTable_complete
  refine (checkedImport_eq_ok (by decide)).mpr ⟨[ageSexRow "young" "m"],
    [["young", "m", "1"], ["old", "f", "1"]], rfl, parseCsv_csvText_ok (by decide), by decide,
    checkImportTypes_eq_ok.mpr ?_, keyDomainsOf_sound hsound, sound_ageSex, fun _ => ?_, rfl⟩
  · intro key hkey htype
    have hstring : ∀ key ∈ ageSexTable.keys, key.type = .string := by decide
    exact absurd (hstring key hkey) htype
  · unfold Covers
    decide

/-- An import that adds an age and a sex stores a version that lacks the other two pairs. -/
theorem import_incomplete : ¬ ∀ host t, AllComplete host.engine t →
    ∀ ws, Always (step host) (KeepsComplete host) t ws := by
  intro h
  let t : Table := ⟨"age", 1, [ageSexTable]⟩
  let w : Write := .importFile 1 ageSexFile "age.csv"
  let result : ImportResult :=
    ⟨[ageSexRow "young" "m", ageSexRow "old" "f"], "age.csv", "", "passed", 1⟩
  have hall : AllComplete literalHost.engine t := by
    intro v hv _
    rw [List.mem_singleton.mp hv]
    exact ageSexTable_complete
  have hderive : w.derive literalHost ageSexTable = .ok (importDerived ageSexTable result "age.csv") := by
    rw [Write.derive, ageSexTable_import, Except.map]
  obtain ⟨t', hpersist⟩ : ∃ t', t.persistNewVersion (importDerived ageSexTable result "age.csv") =
      .ok t' := ⟨_, rfl⟩
  have hsave : t.save literalHost w = .ok t' :=
    bind_eq_ok.mpr ⟨ageSexTable, rfl, bind_eq_ok.mpr ⟨_, hderive,
      bind_eq_ok.mpr ⟨⟨⟩, ensure_eq_ok.mpr rfl, hpersist⟩⟩⟩
  have hstep : step literalHost t w = some t' := by rw [step, hsave]
  have hwhole := (keepsComplete_iff hall hstep).mp (h literalHost t hall [w] t' hstep).1
  have hcovers := hwhole 1 ageSexFile "age.csv" ageSexTable result.cells rfl hsave rfl rfl
    (importConfirmed_eq_ok ageSexTable_import).1
  exact absurd (hcovers ["young", "f"] (by decide)) (by decide)

end GiPricing.RateTables
