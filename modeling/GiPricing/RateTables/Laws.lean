import GiPricing.Failure.Lists
import GiPricing.Numeric.Significant
import GiPricing.RateTables.Truthful

/-! # The laws of the bulk operations

What each operation makes of the values. The operations compute in 28 digits, so an uplift is exact
where its products have no more; the other laws hold of every version.
-/

namespace GiPricing.RateTables

open Failure Decimal

/-! ## Products of 28 digits -/

section Products

variable {percentage old : ℚ}

/-- The product has no digit past the last of 28, and what the rounding of the factor moves it by is
taken back: it is less than half a unit of that digit, or half and the digit is even. -/
def KeptExactly (percentage old : ℚ) : Prop :=
  let kept := unit prec (old * upliftFactor percentage)
  let shift := |old * (upliftFactor percentage - (1 + percentage))|
  ∃ m : ℤ, old * (1 + percentage) = m * kept ∧
    (shift < kept / 2 ∨ shift = kept / 2 ∧ m % 2 = 0)

theorem uplift_eq_iff : uplift percentage old = old * (1 + percentage) ↔
    KeptExactly percentage old := by
  have hshift : old * upliftFactor percentage - old * (1 + percentage) =
      old * (upliftFactor percentage - (1 + percentage)) := by ring
  rw [uplift, roundSig_eq_iff, hshift, KeptExactly]

end Products

/-! ## Rows -/

section Rows

variable {name : String} {row : CellRow} {m : CellRow × Bool} {transform : ℚ → ℚ}

/-- What a transform makes of one row. -/
structure Transforms (name : String) (transform : ℚ → ℚ) (row row' : CellRow) : Prop where
  old : cellValue name row = .ok (valueOf name row)
  new : cellValue name row' = .ok (transform (valueOf name row))
  others : ∀ column, column ≠ name → row'.get? column = row.get? column
  kept : transform (valueOf name row) = valueOf name row → row' = row

theorem Transforms.value {row' : CellRow} (h : Transforms name transform row row') :
    valueOf name row' = transform (valueOf name row) := valueOf_eq h.new

theorem transformRow_transforms
    (hnew : ∀ old, transform old ≠ old → Terminating (transform old))
    (h : transformRow name transform row = .ok m) : Transforms name transform row m.1 := by
  obtain ⟨old, hold, h⟩ := bind_eq_ok.mp h
  have hvalue := valueOf_eq hold
  split_ifs at h with hsame
  · cases h
    exact ⟨by rw [hvalue, hold], by rw [hvalue, hsame, hold], fun _ _ => rfl, fun _ => rfl⟩
  · obtain ⟨text, htext, h⟩ := bind_eq_ok.mp h
    cases h
    refine ⟨by rw [hvalue, hold], ?_, fun column hne => ?_, fun hkept => ?_⟩
    · rw [hvalue]
      exact cellValue_insert (hnew old hsame) htext
    · rw [Dict.get?_insert, if_neg hne]
    · rw [hvalue] at hkept
      exact absurd hkept hsame

theorem transformRow_self {old : ℚ} (hold : cellValue name row = .ok old)
    (h : transform old = old) : transformRow name transform row = .ok (row, false) := by
  rw [transformRow, hold]
  exact if_pos h

theorem transformRows_self {rows : List CellRow}
    (h : ∀ row ∈ rows, ∃ old, cellValue name row = .ok old ∧ transform old = old) :
    transformRows name transform rows = .ok (rows.map (·, false)) := by
  rw [transformRows, mapM_eq_ok, List.forall₂_map_right_iff, List.forall₂_same]
  intro row hrow
  obtain ⟨old, hold, hsame⟩ := h row hrow
  exact transformRow_self hold hsame

theorem rowMatches_congr {filter : KeyFilter} {row' : CellRow}
    (h : ∀ key ∈ filter.keys, row'.get? key = row.get? key) :
    rowMatches row' filter = rowMatches row filter := by
  refine foldlM_same fun entry hentry all => ?_
  rw [h entry.1 (List.mem_map_of_mem hentry)]

theorem insert_self {column text : String} (h : row.get? column = some text) :
    row.insert column text = row := by
  have hmem : column ∈ row.keys := List.mem_map_of_mem ((row.get?_eq_some).mp h)
  have hentries : row.entries.map (fun e => (e.1, if e.1 = column then text else e.2)) =
      row.entries := by
    conv_rhs => rw [← List.map_id row.entries]
    refine List.map_congr_left fun e he => ?_
    split_ifs with hcolumn
    · have hvalue := (row.get?_eq_some (k := e.1) (v := e.2)).mpr he
      rw [hcolumn, h] at hvalue
      rw [Option.some.inj hvalue]
      rfl
    · rfl
  rw [Dict.insert, dif_pos hmem]
  simp only [hentries]

end Rows

/-! ## The laws -/

section Laws

variable (engine : Engine) (v : RateTableVersion)

/-- Each cell in the scope of an uplift is multiplied exactly, and an uplift by 0 changes no text. -/
structure Uplifts (op : BulkOperation) (percentage : ℚ) (rows rows' : List CellRow) : Prop where
  exactly : List.Forall₂ (fun row row' => op.Selects row →
    valueOf v.value.name row' = valueOf v.value.name row * (1 + percentage)) rows rows'
  by_zero : percentage = 0 → rows' = rows

/-- The same operation on its own result changes nothing. -/
def Idempotent (op : BulkOperation) (derived : RateTableVersion) : Prop :=
  ∀ note, ∃ again, applyBulk engine derived op note = .ok again ∧ again.cells = derived.cells

structure Clamps (floor cap : ℚ) (rows rows' : List CellRow) : Prop where
  within : ∀ row' ∈ rows', floor ≤ valueOf v.value.name row' ∧ valueOf v.value.name row' ≤ cap
  inside : List.Forall₂ (fun row row' => floor ≤ valueOf v.value.name row →
    valueOf v.value.name row ≤ cap → row' = row) rows rows'

structure Rebases (baseLevel : KeyFilter) (rows rows' : List CellRow) : Prop where
  reference : List.Forall₂ (fun row row' => rowMatches row baseLevel = .ok true →
    valueOf v.value.name row' = 1) rows rows'
  ordered : ∀ reference, referenceRow rows baseLevel = .ok reference →
    0 < valueOf v.value.name reference → ∀ a ∈ rows.zip rows', ∀ b ∈ rows.zip rows',
      valueOf v.value.name a.1 ≤ valueOf v.value.name b.1 →
        valueOf v.value.name a.2 ≤ valueOf v.value.name b.2

/-- The laws of an operation, of the rows and what it makes of them. -/
def BulkOperation.Lawful (rows rows' : List CellRow) (derived : RateTableVersion) :
    BulkOperation → Prop
  | upliftTable percentage => Uplifts v (.upliftTable percentage) percentage rows rows'
  | upliftByFilter percentage filter =>
    Uplifts v (.upliftByFilter percentage filter) percentage rows rows'
  | floorAndCap floor cap =>
    Clamps v floor cap rows rows' ∧ Idempotent engine (.floorAndCap floor cap) derived
  | rebaseToLevel baseLevel =>
    Rebases v baseLevel rows rows' ∧ Idempotent engine (.rebaseToLevel baseLevel) derived

def returnedCells (result : Except Refusal RateTableVersion) : Option Storage :=
  result.toOption.map RateTableVersion.cells

/-- An uplift of the table is the uplift by a filter that every row matches. -/
def UpliftsAlike : Prop := ∀ percentage filter note rows, v.cells = .rows rows →
  (∀ key ∈ filter.keys, key ∈ v.keyNames) → (∀ row ∈ rows, rowMatches row filter = .ok true) →
    returnedCells (applyBulk engine v (.upliftByFilter percentage filter) note) =
      returnedCells (applyBulk engine v (.upliftTable percentage) note)

def quotientRow (reference row : CellRow) : CellRow :=
  let quotient := rebased (valueOf v.value.name reference) (valueOf v.value.name row)
  row.insert v.value.name (if quotient = 0 then "0" else fixedPoint quotient)

/-- A level that names the value column, which can have the name of a key column, picks one row
again once the quotients are written, and it is a one. -/
def PicksOneAgain (baseLevel : KeyFilter) (rows : List CellRow) : Prop :=
  v.value.name ∈ baseLevel.keys → ∀ reference, referenceRow rows baseLevel = .ok reference →
    ∃ again, referenceRow (rows.map (quotientRow v reference)) baseLevel = .ok again ∧
      valueOf v.value.name again = 1

/-- The digits of an uplift stay within the 28 that are kept, and the level of a rebase names key
columns, or picks a one again. -/
def BulkOperation.Safe (rows : List CellRow) : BulkOperation → Prop
  | upliftTable percentage => ∀ row ∈ rows, KeptExactly percentage (valueOf v.value.name row)
  | upliftByFilter percentage filter => ∀ row ∈ rows, rowMatches row filter = .ok true →
    KeptExactly percentage (valueOf v.value.name row)
  | floorAndCap .. => True
  | rebaseToLevel baseLevel => PicksOneAgain v baseLevel rows

end Laws

/-! ## Uplifts -/

section Operations

variable {engine : Engine} {v : RateTableVersion} {rows : List CellRow} {op : BulkOperation}
  {moved : List (CellRow × Bool)} {note : String} {derived : RateTableVersion}

theorem checkFilterKey_eq_ok {filter : KeyFilter} {u : Unit} :
    checkFilterKey v filter = .ok u ↔ ∀ key ∈ filter.keys, key ∈ v.keyNames := by
  rw [checkFilterKey, ensure_eq_ok, List.filter_eq_nil_iff]
  simp

theorem returnedCells_eq_some {cells : Storage} :
    returnedCells (applyBulk engine v op note) = some cells ↔
      v.value.type ∈ operationValueTypes op.kind ∧ ∃ rows moved, v.cells = .rows rows ∧
        op.rows v rows = .ok moved ∧ validateResult engine v (moved.map Prod.fst) = .ok () ∧
        .rows (moved.map Prod.fst) = cells := by
  have hsome : returnedCells (applyBulk engine v op note) = some cells ↔
      ∃ derived, applyBulk engine v op note = .ok derived ∧ derived.cells = cells := by
    cases applyBulk engine v op note <;> simp [returnedCells, Except.toOption]
  rw [hsome]
  simp only [applyBulk, bind_eq_ok, ensure_eq_ok, exists_const, pure_eq_ok, rowsOf_eq_ok]
  constructor
  · rintro ⟨_, ⟨htype, rows, hrows, moved, hmoved, _, hvalid, rfl⟩, rfl⟩
    exact ⟨htype, rows, moved, hrows, hmoved, hvalid, rfl⟩
  · rintro ⟨htype, rows, moved, hrows, hmoved, hvalid, rfl⟩
    exact ⟨_, ⟨htype, rows, hrows, moved, hmoved, _, hvalid, rfl⟩, rfl⟩

theorem uplifts_alike (engine : Engine) (v : RateTableVersion) : UpliftsAlike engine v := by
  intro percentage filter note rows hcells hkeys hmatch
  have hrows : BulkOperation.rows v rows (.upliftByFilter percentage filter) =
      BulkOperation.rows v rows (.upliftTable percentage) := by
    have hcheck := checkFilterKey_eq_ok (u := ()) |>.mpr hkeys
    rw [BulkOperation.rows, BulkOperation.rows, hcheck, transformRows]
    refine mapM_same fun row hrow => ?_
    rw [hmatch row hrow]
    rfl
  ext cells
  rw [returnedCells_eq_some, returnedCells_eq_some]
  refine and_congr Iff.rfl ?_
  constructor
  · rintro ⟨rows', moved, hcells', hmoved, hrest⟩
    obtain rfl : rows = rows' := Storage.rows.inj (hcells.symm.trans hcells')
    exact ⟨rows, moved, hcells, hrows ▸ hmoved, hrest⟩
  · rintro ⟨rows', moved, hcells', hmoved, hrest⟩
    obtain rfl : rows = rows' := Storage.rows.inj (hcells.symm.trans hcells')
    exact ⟨rows, moved, hcells, hrows ▸ hmoved, hrest⟩

theorem forall₂_iff_forall_mem {R P : CellRow → CellRow → Prop} {Q : CellRow → Prop}
    {rows rows' : List CellRow} (hR : List.Forall₂ R rows rows')
    (h : ∀ row row', R row row' → (P row row' ↔ Q row)) :
    List.Forall₂ P rows rows' ↔ ∀ row ∈ rows, Q row := by
  induction hR with
  | nil => simp
  | cons hrow _ ih => rw [List.forall₂_cons, List.forall_mem_cons, h _ _ hrow, ih]

/-- What an uplift makes of each row: it multiplies those in its scope. -/
def Scales (v : RateTableVersion) (op : BulkOperation) (percentage : ℚ) (row row' : CellRow) : Prop :=
  (op.Selects row → Transforms v.value.name (uplift percentage) row row') ∧
    (¬ op.Selects row → row' = row)

theorem uplifts_iff {percentage : ℚ} {rows' : List CellRow}
    (h : List.Forall₂ (Scales v op percentage) rows rows') :
    Uplifts v op percentage rows rows' ↔
      ∀ row ∈ rows, op.Selects row → KeptExactly percentage (valueOf v.value.name row) := by
  have hexactly := forall₂_iff_forall_mem (P := fun row row' => op.Selects row →
    valueOf v.value.name row' = valueOf v.value.name row * (1 + percentage))
    (Q := fun row => op.Selects row → KeptExactly percentage (valueOf v.value.name row)) h
    fun row row' hrow => by
      refine imp_congr_right fun hselects => ?_
      rw [(hrow.1 hselects).value, uplift_eq_iff]
  refine ⟨fun hu => hexactly.mp hu.exactly, fun hkept => ⟨hexactly.mpr hkept, ?_⟩⟩
  rintro rfl
  have hsame : List.Forall₂ (fun row row' => row = row') rows rows' := by
    rw [List.forall₂_iff_zip] at h ⊢
    refine ⟨h.1, fun {row row'} hmem => ?_⟩
    obtain ⟨hin, hout⟩ := h.2 hmem
    by_cases hselects : op.Selects row
    · refine ((hin hselects).kept ?_).symm
      rw [uplift_eq_iff.mpr (hkept row (List.of_mem_zip hmem).1 hselects), add_zero, mul_one]
    · exact (hout hselects).symm
  exact (List.forall₂_eq_eq_eq ▸ hsame : rows = rows').symm

theorem upliftTable_scales {percentage : ℚ}
    (h : (BulkOperation.upliftTable percentage).rows v rows = .ok moved) :
    List.Forall₂ (Scales v (.upliftTable percentage) percentage) rows (moved.map Prod.fst) := by
  rw [List.forall₂_map_right_iff]
  refine (mapM_eq_ok.mp h).imp fun row m hm => ?_
  exact ⟨fun _ => transformRow_transforms (fun old _ => terminating_uplift _ old) hm,
    fun hnot => absurd trivial hnot⟩

theorem upliftByFilter_scales {percentage : ℚ} {filter : KeyFilter}
    (h : (BulkOperation.upliftByFilter percentage filter).rows v rows = .ok moved) :
    List.Forall₂ (Scales v (.upliftByFilter percentage filter) percentage) rows
      (moved.map Prod.fst) := by
  obtain ⟨_, -, h⟩ := bind_eq_ok.mp h
  rw [List.forall₂_map_right_iff]
  refine (mapM_eq_ok.mp h).imp fun row m hm => ?_
  obtain ⟨matched, hmatched, hm⟩ := bind_eq_ok.mp hm
  cases matched with
  | true =>
    exact ⟨fun _ => transformRow_transforms (fun old _ => terminating_uplift _ old) hm,
      fun hnot => absurd hmatched hnot⟩
  | false =>
    cases hm
    refine ⟨fun hselects => ?_, fun _ => rfl⟩
    have hselects : rowMatches row filter = .ok true := hselects
    rw [hmatched] at hselects
    cases hselects

/-! ## Operations on their own results -/

theorem idempotent_of {rows' : List CellRow} {creation : Creation} {moved' : List (CellRow × Bool)}
    (htype : v.value.type ∈ operationValueTypes op.kind)
    (hvalid : validateResult engine v rows' = .ok ())
    (h : op.rows (v.newVersion rows' note creation) rows' = .ok moved')
    (hsame : moved'.map Prod.fst = rows') :
    Idempotent engine op (v.newVersion rows' note creation) := by
  intro note'
  have hreturned : returnedCells (applyBulk engine (v.newVersion rows' note creation) op note') =
      some (.rows rows') := by
    rw [returnedCells_eq_some]
    refine ⟨htype, rows', moved', rfl, h, ?_, by rw [hsame]⟩
    rw [hsame]
    exact hvalid
  cases hagain : applyBulk engine (v.newVersion rows' note creation) op note' with
  | error e =>
    rw [hagain] at hreturned
    cases hreturned
  | ok again =>
    rw [hagain] at hreturned
    exact ⟨again, rfl, Option.some.inj hreturned⟩

/-! ## Floor and cap -/

theorem floorAndCap_transforms {floor cap : ℚ} (hfloor : Terminating floor) (hcap : Terminating cap)
    (h : (BulkOperation.floorAndCap floor cap).rows v rows = .ok moved) :
    floor ≤ cap ∧ List.Forall₂ (Transforms v.value.name fun old => max floor (min old cap)) rows
      (moved.map Prod.fst) := by
  obtain ⟨hle, h⟩ := ensure_bind_eq_ok.mp h
  rw [List.forall₂_map_right_iff]
  refine ⟨hle, (mapM_eq_ok.mp h).imp fun row m hm => ?_⟩
  exact transformRow_transforms (fun old hne => terminating_clamp hfloor hcap hne) hm

theorem clamp_eq_self {floor cap old : ℚ} (h1 : floor ≤ old) (h2 : old ≤ cap) :
    max floor (min old cap) = old := by rw [min_eq_left h2, max_eq_right h1]

theorem clamps {floor cap : ℚ} {rows' : List CellRow} (hle : floor ≤ cap)
    (h : List.Forall₂ (Transforms v.value.name fun old => max floor (min old cap)) rows rows') :
    Clamps v floor cap rows rows' := by
  refine ⟨fun row' hrow' => ?_, h.imp fun row row' hrow h1 h2 => hrow.kept (clamp_eq_self h1 h2)⟩
  obtain ⟨row, -, hrow⟩ := exists_of_forall₂ h.flip hrow'
  rw [hrow.value]
  exact ⟨le_max_left _ _, max_le hle (min_le_right _ _)⟩

theorem floorAndCap_again {floor cap : ℚ} {rows' : List CellRow} (hle : floor ≤ cap)
    (h : List.Forall₂ (Transforms v.value.name fun old => max floor (min old cap)) rows rows') :
    (BulkOperation.floorAndCap floor cap).rows v rows' = .ok (rows'.map (·, false)) := by
  rw [BulkOperation.rows, ensure_bind_eq_ok]
  refine ⟨hle, transformRows_self fun row' hrow' => ?_⟩
  obtain ⟨row, -, hrow⟩ := exists_of_forall₂ h.flip hrow'
  refine ⟨_, hrow.new, ?_⟩
  exact clamp_eq_self (le_max_left _ _) (max_le hle (min_le_right _ _))

/-! ## Rebase -/

def matched (filter : KeyFilter) (row : CellRow) : Bool :=
  (rowMatches row filter).toOption.getD false

theorem matched_of_eq {filter : KeyFilter} {row : CellRow} {b : Bool}
    (h : rowMatches row filter = .ok b) : matched filter row = b := by
  rw [matched, h]
  rfl

theorem referenceRow_eq_ok {baseLevel : KeyFilter} {reference : CellRow} :
    referenceRow rows baseLevel = .ok reference ↔
      (∀ row ∈ rows, ∃ b, rowMatches row baseLevel = .ok b) ∧
        rows.filter (matched baseLevel) = [reference] := by
  have hflatten : ∀ rows : List CellRow,
      (rows.map fun row => if matched baseLevel row then [row] else []).flatten =
        rows.filter (matched baseLevel) := by
    intro rows
    induction rows with
    | nil => rfl
    | cons row rows ih =>
      rw [List.map_cons, List.flatten_cons, ih, List.filter_cons]
      split_ifs <;> rfl
  have hmatching : ∀ {matching : List (List CellRow)}, (rows.mapM fun row => do
      let m ← rowMatches row baseLevel
      return if m then [row] else []) = .ok matching ↔
        (∀ row ∈ rows, ∃ b, rowMatches row baseLevel = .ok b) ∧
          rows.map (fun row => if matched baseLevel row then [row] else []) = matching := by
    intro matching
    simp only [mapM_eq_ok, bind_eq_ok, pure_eq_ok]
    constructor
    · intro h
      refine ⟨fun row hrow => ?_, ?_⟩
      · obtain ⟨_, -, b, hb, -⟩ := exists_of_forall₂ h hrow
        exact ⟨b, hb⟩
      · rw [← List.forall₂_eq_eq_eq, List.forall₂_map_left_iff]
        refine h.imp fun row m hm => ?_
        obtain ⟨b, hb, rfl⟩ := hm
        rw [matched_of_eq hb]
    · rintro ⟨hall, rfl⟩
      rw [List.forall₂_map_right_iff, List.forall₂_same]
      intro row hrow
      obtain ⟨b, hb⟩ := hall row hrow
      exact ⟨b, hb, by rw [matched_of_eq hb]⟩
  rw [referenceRow, bind_eq_ok]
  constructor
  · rintro ⟨matching, hm, h⟩
    obtain ⟨hall, rfl⟩ := hmatching.mp hm
    rw [hflatten] at h
    refine ⟨hall, ?_⟩
    cases hf : rows.filter (matched baseLevel) with
    | nil =>
      rw [hf] at h
      cases h
    | cons row rest =>
      rw [hf] at h
      cases rest with
      | nil => rw [Except.ok.inj h]
      | cons => cases h
  · rintro ⟨hall, hf⟩
    refine ⟨_, hmatching.mpr ⟨hall, rfl⟩, ?_⟩
    rw [hflatten, hf]

theorem mem_of_referenceRow {baseLevel : KeyFilter} {reference : CellRow}
    (h : referenceRow rows baseLevel = .ok reference) : reference ∈ rows := by
  have hfilter := (referenceRow_eq_ok.mp h).2
  exact (List.mem_filter.mp (hfilter ▸ List.mem_singleton_self reference)).1

/-- What a rebase makes of one row. -/
structure Rebased (name : String) (reference : ℚ) (row row' : CellRow) : Prop where
  old : cellValue name row = .ok (valueOf name row)
  written : ∃ text, formatValue (rebased reference (valueOf name row)) = .ok text ∧
    row' = row.insert name text

theorem Rebased.new {name : String} {reference : ℚ} {row row' : CellRow}
    (h : Rebased name reference row row') :
    cellValue name row' = .ok (rebased reference (valueOf name row)) := by
  obtain ⟨text, htext, rfl⟩ := h.written
  exact cellValue_insert (terminating_roundSig _ _) htext

theorem Rebased.value {name : String} {reference : ℚ} {row row' : CellRow}
    (h : Rebased name reference row row') :
    valueOf name row' = rebased reference (valueOf name row) := valueOf_eq h.new

theorem rebaseToLevel_rebased {baseLevel : KeyFilter}
    (h : (BulkOperation.rebaseToLevel baseLevel).rows v rows = .ok moved) :
    (∀ key ∈ baseLevel.keys, key ∈ v.keyNames) ∧ ∃ reference,
      referenceRow rows baseLevel = .ok reference ∧ valueOf v.value.name reference ≠ 0 ∧
        List.Forall₂ (Rebased v.value.name (valueOf v.value.name reference)) rows
          (moved.map Prod.fst) := by
  obtain ⟨_, hkeys, h⟩ := bind_eq_ok.mp h
  obtain ⟨reference, hreference, h⟩ := bind_eq_ok.mp h
  obtain ⟨q, hq, h⟩ := bind_eq_ok.mp h
  obtain ⟨hne, h⟩ := ensure_bind_eq_ok.mp h
  rw [← valueOf_eq hq] at hne h
  refine ⟨checkFilterKey_eq_ok.mp hkeys, reference, hreference, hne, ?_⟩
  rw [List.forall₂_map_right_iff]
  refine (mapM_eq_ok.mp h).imp fun row m hm => ?_
  obtain ⟨old, hold, hm⟩ := bind_eq_ok.mp hm
  obtain ⟨text, htext, hm⟩ := bind_eq_ok.mp hm
  cases hm
  have hvalue := valueOf_eq hold
  exact ⟨by rw [hvalue, hold], text, by rw [hvalue]; exact htext, rfl⟩

theorem rebased_self {reference : ℚ} (h : reference ≠ 0) : rebased reference reference = 1 := by
  rw [rebased, div_self h]
  exact Decimal.Fits.roundSig_eq ⟨1, 0, by norm_num [prec], by norm_num⟩

theorem rebased_one (reference old : ℚ) :
    rebased 1 (rebased reference old) = rebased reference old := by
  rw [rebased, div_one]
  exact (fits_roundSig (by decide) _).roundSig_eq

theorem rebased_mono {reference a b : ℚ} (hpos : 0 < reference) (h : a ≤ b) :
    rebased reference a ≤ rebased reference b :=
  roundSig_mono (by decide) (div_le_div_of_nonneg_right h hpos.le)

theorem rebases {baseLevel : KeyFilter} {reference : CellRow} {rows' : List CellRow}
    (hreference : referenceRow rows baseLevel = .ok reference)
    (hne : valueOf v.value.name reference ≠ 0)
    (h : List.Forall₂ (Rebased v.value.name (valueOf v.value.name reference)) rows rows') :
    Rebases v baseLevel rows rows' := by
  rw [List.forall₂_iff_zip] at h
  constructor
  · rw [List.forall₂_iff_zip]
    refine ⟨h.1, fun {row row'} hmem hmatch => ?_⟩
    have hfilter : row ∈ rows.filter (matched baseLevel) :=
      List.mem_filter.mpr ⟨(List.of_mem_zip hmem).1, matched_of_eq hmatch⟩
    rw [(referenceRow_eq_ok.mp hreference).2, List.mem_singleton] at hfilter
    rw [(h.2 hmem).value, hfilter, rebased_self hne]
  · intro reference' hreference' hpos a ha b hb hle
    obtain rfl : reference = reference' := Except.ok.inj (hreference.symm.trans hreference')
    rw [(h.2 ha).value, (h.2 hb).value]
    exact rebased_mono hpos hle

theorem Rebased.eq_quotientRow {reference row row' : CellRow}
    (h : Rebased v.value.name (valueOf v.value.name reference) row row') :
    row' = quotientRow v reference row := by
  obtain ⟨text, htext, rfl⟩ := h.written
  simp only [formatValue, ensure_bind_eq_ok, pure_eq_ok] at htext
  rw [quotientRow, htext.2]

theorem rebased_rows {reference : CellRow} {rows' : List CellRow}
    (h : List.Forall₂ (Rebased v.value.name (valueOf v.value.name reference)) rows rows') :
    rows' = rows.map (quotientRow v reference) := by
  have hmap : List.Forall₂ (fun row row' => quotientRow v reference row = row') rows rows' :=
    h.imp fun row row' hrow => hrow.eq_quotientRow.symm
  rw [← List.forall₂_map_left_iff (R := Eq), List.forall₂_eq_eq_eq] at hmap
  exact hmap.symm

/-- The reference of the rebased rows, at a level of other columns, is the rebased reference. -/
theorem referenceRow_rebased {baseLevel : KeyFilter} {reference : CellRow} {rows' : List CellRow}
    {q : ℚ} (hown : v.value.name ∉ baseLevel.keys)
    (hreference : referenceRow rows baseLevel = .ok reference)
    (h : List.Forall₂ (Rebased v.value.name q) rows rows') :
    ∃ reference', referenceRow rows' baseLevel = .ok reference' ∧
      Rebased v.value.name q reference reference' := by
  have hmatch : ∀ row row', Rebased v.value.name q row row' →
      rowMatches row' baseLevel = rowMatches row baseLevel := by
    intro row row' hrow
    obtain ⟨text, -, rfl⟩ := hrow.written
    refine rowMatches_congr fun key hkey => ?_
    rw [Dict.get?_insert, if_neg fun he : key = v.value.name => hown (he ▸ hkey)]
  obtain ⟨hall, hfilter⟩ := referenceRow_eq_ok.mp hreference
  have hrel : List.Forall₂ (Rebased v.value.name q) (rows.filter (matched baseLevel))
      (rows'.filter (matched baseLevel)) := by
    refine List.rel_filter (fun row row' hrow => ?_) h
    have hsame : matched baseLevel row' = matched baseLevel row := by
      rw [matched, matched, hmatch row row' hrow]
    change matched baseLevel row = true ↔ matched baseLevel row' = true
    rw [hsame]
  rw [hfilter] at hrel
  obtain ⟨reference', hreference', hnil⟩ : ∃ reference', Rebased v.value.name q reference reference' ∧
      rows'.filter (matched baseLevel) = [reference'] := by
    cases hf : rows'.filter (matched baseLevel) with
    | nil =>
      rw [hf] at hrel
      cases hrel
    | cons row' rest =>
      rw [hf] at hrel
      obtain ⟨hrow, hrest⟩ := List.forall₂_cons.mp hrel
      rw [List.forall₂_nil_left_iff.mp hrest]
      exact ⟨row', hrow, rfl⟩
  refine ⟨reference', referenceRow_eq_ok.mpr ⟨fun row' hrow' => ?_, hnil⟩, hreference'⟩
  obtain ⟨row, hmem, hrow⟩ := exists_of_forall₂ h.flip hrow'
  rw [hmatch row row' hrow]
  exact hall row hmem

theorem picksOneAgain_iff {baseLevel : KeyFilter} {reference : CellRow} {rows' : List CellRow}
    (hreference : referenceRow rows baseLevel = .ok reference)
    (hne : valueOf v.value.name reference ≠ 0)
    (h : List.Forall₂ (Rebased v.value.name (valueOf v.value.name reference)) rows rows') :
    PicksOneAgain v baseLevel rows ↔
      ∃ again, referenceRow rows' baseLevel = .ok again ∧ valueOf v.value.name again = 1 := by
  by_cases hown : v.value.name ∈ baseLevel.keys
  · rw [rebased_rows h, PicksOneAgain]
    constructor
    · intro hpicks
      exact hpicks hown reference hreference
    · intro hpicks _ reference' hreference'
      obtain rfl : reference = reference' := Except.ok.inj (hreference.symm.trans hreference')
      exact hpicks
  · obtain ⟨reference', hreference', hrebased⟩ := referenceRow_rebased hown hreference h
    refine iff_of_true (fun hmem => absurd hmem hown) ⟨reference', hreference', ?_⟩
    rw [hrebased.value, rebased_self hne]

theorem rebaseToLevel_again {baseLevel : KeyFilter} {again : CellRow} {rows' : List CellRow} {q : ℚ}
    (hkeys : ∀ key ∈ baseLevel.keys, key ∈ v.keyNames)
    (hagain : referenceRow rows' baseLevel = .ok again) (hone : valueOf v.value.name again = 1)
    (h : List.Forall₂ (Rebased v.value.name q) rows rows') :
    ∃ moved', (BulkOperation.rebaseToLevel baseLevel).rows v rows' = .ok moved' ∧
      moved'.map Prod.fst = rows' := by
  have hcell : cellValue v.value.name again = .ok 1 := by
    obtain ⟨row, -, hrow⟩ := exists_of_forall₂ h.flip (mem_of_referenceRow hagain)
    rw [hrow.new, ← hrow.value, hone]
  refine ⟨rows'.map fun row' => (row', decide (valueOf v.value.name row' ≠ 1)), ?_, ?_⟩
  · rw [BulkOperation.rows, checkFilterKey_eq_ok (u := ()) |>.mpr hkeys]
    refine bind_eq_ok.mpr ⟨(), rfl, bind_eq_ok.mpr ⟨again, hagain, bind_eq_ok.mpr
      ⟨1, hcell, ensure_bind_eq_ok.mpr ⟨one_ne_zero, ?_⟩⟩⟩⟩
    rw [mapM_eq_ok, List.forall₂_map_right_iff, List.forall₂_same]
    intro row' hrow'
    obtain ⟨row, -, hrow⟩ := exists_of_forall₂ h.flip hrow'
    have hnew := hrow.new
    have hvalue := hrow.value
    obtain ⟨text, htext, hinsert⟩ := hrow.written
    have hself : row'.insert v.value.name text = row' := by
      apply insert_self
      rw [hinsert, Dict.get?_insert, if_pos rfl]
    have hquotient : roundSig prec (valueOf v.value.name row' / 1) = valueOf v.value.name row' := by
      rw [hvalue]
      exact rebased_one _ _
    rw [← hvalue] at hnew htext
    refine bind_eq_ok.mpr ⟨_, hnew, bind_eq_ok.mpr ⟨text, by rw [hquotient]; exact htext, ?_⟩⟩
    rw [hquotient, hself]
    rfl
  · rw [List.map_map]
    exact List.map_id _

theorem picks_of_idempotent {baseLevel : KeyFilter} {rows' : List CellRow} {creation : Creation}
    (h : Idempotent engine (.rebaseToLevel baseLevel) (v.newVersion rows' note creation)) :
    ∃ again, referenceRow rows' baseLevel = .ok again ∧ valueOf v.value.name again = 1 := by
  obtain ⟨derived', hderived', hcells⟩ := h note
  have hreturned : returnedCells (applyBulk engine (v.newVersion rows' note creation)
      (.rebaseToLevel baseLevel) note) = some (.rows rows') := by
    rw [hderived']
    exact congrArg some hcells
  rw [returnedCells_eq_some] at hreturned
  obtain ⟨-, rows, moved, hrows, hmoved, -, hsame⟩ := hreturned
  obtain rfl : rows' = rows := Storage.rows.inj hrows
  have hsame : moved.map Prod.fst = rows' := Storage.rows.inj hsame
  obtain ⟨-, again, hagain, hne, hrebased⟩ := rebaseToLevel_rebased hmoved
  rw [hsame] at hrebased
  refine ⟨again, hagain, ?_⟩
  have hself := List.forall₂_same.mp hrebased again (mem_of_referenceRow hagain)
  exact hself.value.trans (rebased_self hne)

/-! ## Every operation -/

/-- The laws hold of what an operation returns exactly where the digits of an uplift stay within the
28 that are kept and a rebase picks a one again, as it does at every level of key columns; an uplift
of the table is always the uplift by a filter that every row matches. -/
theorem bulk_lawful_iff (engine : Engine) (v : RateTableVersion) :
    UpliftsAlike engine v ∧ ∀ op note derived, op.Decimals → applyBulk engine v op note = .ok derived →
      ∃ rows rows', v.cells = .rows rows ∧ derived.cells = .rows rows' ∧
        (op.Lawful engine v rows rows' derived ↔ op.Safe v rows) := by
  refine ⟨uplifts_alike engine v, fun op note derived hop h => ?_⟩
  simp only [applyBulk, bind_eq_ok, ensure_eq_ok, exists_const, pure_eq_ok, rowsOf_eq_ok] at h
  obtain ⟨htype, rows, hcells, moved, hmoved, _, hresult, rfl⟩ := h
  refine ⟨rows, moved.map Prod.fst, hcells, rfl, ?_⟩
  cases op with
  | upliftTable percentage =>
    rw [BulkOperation.Lawful, uplifts_iff (upliftTable_scales hmoved), BulkOperation.Safe]
    exact forall₂_congr fun row _ => ⟨fun hkept => hkept trivial, fun hkept _ => hkept⟩
  | upliftByFilter percentage filter =>
    rw [BulkOperation.Lawful, uplifts_iff (upliftByFilter_scales hmoved), BulkOperation.Safe]
    exact Iff.rfl
  | floorAndCap floor cap =>
    obtain ⟨hle, htransforms⟩ := floorAndCap_transforms hop.1 hop.2 hmoved
    refine iff_of_true ⟨clamps hle htransforms, ?_⟩ trivial
    refine idempotent_of htype hresult (floorAndCap_again hle htransforms) ?_
    rw [List.map_map]
    exact List.map_id _
  | rebaseToLevel baseLevel =>
    obtain ⟨hkeys, reference, hreference, hne, hrebased⟩ := rebaseToLevel_rebased hmoved
    rw [BulkOperation.Lawful, BulkOperation.Safe, picksOneAgain_iff hreference hne hrebased]
    refine ⟨fun hlaws => picks_of_idempotent hlaws.2, ?_⟩
    rintro ⟨again, hagain, hone⟩
    obtain ⟨moved', hmoved', hsame⟩ := rebaseToLevel_again hkeys hagain hone hrebased
    exact ⟨rebases hreference hne hrebased, idempotent_of htype hresult hmoved' hsame⟩

end Operations

/-! ## A cell of thirty digits -/

def longTable : RateTableVersion := levelTable "1.23456789012345678901234567891" "2"

theorem valid_longTable : Valid numberEngine longTable := by
  intro rows h
  cases h
  decide

/-- The version that an uplift by 0 makes: the cell is written with 28 digits. -/
def roundedTable : RateTableVersion :=
  { levelTable "1.234567890123456789012345679" "2" with
    version := 2, createdBy := .operation .upliftTable 1 1 }

theorem uplift_longTable :
    applyBulk numberEngine longTable (.upliftTable 0) "" = .ok roundedTable := by with_unfolding_all decide

/-- An uplift by 0 changes the text of a valid cell. -/
theorem uplift_by_zero_moves : ¬ ∀ engine v op note derived, Valid engine v →
    v.value.name ∉ v.keyNames → op.Decimals → applyBulk engine v op note = .ok derived →
      ∃ rows rows', v.cells = .rows rows ∧ derived.cells = .rows rows' ∧
        op.Lawful engine v rows rows' derived := by
  intro h
  obtain ⟨rows, rows', hrows, hrows', hlawful⟩ := h numberEngine longTable (.upliftTable 0) ""
    roundedTable valid_longTable (by decide) trivial uplift_longTable
  cases hrows
  cases hrows'
  exact absurd (hlawful.by_zero rfl) (by decide)

/-- A tenth on two short cells is exact. -/
theorem uplift_levelTable : ∃ rows rows', (levelTable "1" "2").cells = .rows rows ∧
    (levelTable "1.1" "2.2").cells = .rows rows' ∧
      ((BulkOperation.upliftTable (1 / 10)).Lawful numberEngine (levelTable "1" "2") rows rows'
          { levelTable "1.1" "2.2" with version := 2, createdBy := .operation .upliftTable 1 2 } ↔
        (BulkOperation.upliftTable (1 / 10)).Safe (levelTable "1" "2") rows) :=
  (bulk_lawful_iff numberEngine (levelTable "1" "2")).2 (.upliftTable (1 / 10)) ""
    { levelTable "1.1" "2.2" with version := 2, createdBy := .operation .upliftTable 1 2 } trivial
    (by with_unfolding_all decide)

end GiPricing.RateTables
