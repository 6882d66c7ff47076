import GiPricing.RateTables.Derived
import GiPricing.RateTables.Format

/-! # The record of a bulk operation

The count that an operation records is compared with the diff of the new cells against the old
ones.
-/

namespace GiPricing.RateTables

open Failure Decimal

/-! ## Values -/

section Values

variable {q : ℚ} {text : String}

theorem terminating_intCast_mul (m e : ℤ) : Terminating (m * (10 : ℚ) ^ e) := by
  refine ⟨m * 10 ^ e.toNat, (-e).toNat, ?_⟩
  rw [eq_div_iff (by positivity)]
  push_cast
  rw [mul_assoc, ← zpow_natCast, ← zpow_natCast, ← zpow_add₀ (by norm_num)]
  congr 2
  omega

theorem terminating_roundSig (prec : ℕ) (q : ℚ) : Terminating (roundSig prec q) :=
  terminating_intCast_mul _ _

theorem parse_formatValue (hq : Terminating q) (h : formatValue q = .ok text) :
    parse text = some (.finite q) := by
  simp only [formatValue, bind_eq_ok, ensure_eq_ok, exists_const, pure_eq_ok] at h
  obtain ⟨-, rfl⟩ := h
  split_ifs with h0
  · rw [h0, ← fixedPoint_zero]
    exact parse_fixedPoint ⟨0, 0, by norm_num⟩
  · exact parse_fixedPoint hq

end Values

def valueOf (name : String) (row : CellRow) : ℚ := (cellValue name row).toOption.getD 0

theorem cellValue_insert {name : String} {row : CellRow} {q : ℚ} {text : String}
    (hq : Terminating q) (h : formatValue q = .ok text) :
    cellValue name (row.insert name text) = .ok q := by
  simp only [cellValue, bind_eq_ok, require_eq_ok, Dict.get?_insert, if_true]
  exact ⟨text, rfl, by rw [parse_formatValue hq h]; rfl⟩

/-! ## One row -/

section Row

variable {name : String} {row : CellRow} {m : CellRow × Bool}

/-- A row after an operation: its value is another number or the row is the same, and every other
column is as it was. -/
structure Rewrites (name : String) (row row' : CellRow) : Prop where
  old : cellValue name row = .ok (valueOf name row)
  new : cellValue name row' = .ok (valueOf name row')
  others : ∀ column, column ≠ name → row'.get? column = row.get? column

theorem valueOf_eq {q : ℚ} (h : cellValue name row = .ok q) : valueOf name row = q := by
  rw [valueOf, h]
  rfl

theorem Rewrites.refl {q : ℚ} (h : cellValue name row = .ok q) : Rewrites name row row :=
  ⟨by rw [valueOf_eq h, h], by rw [valueOf_eq h, h], fun _ _ => rfl⟩

theorem rewrites_insert {q old : ℚ} {text : String} (hold : cellValue name row = .ok old)
    (hq : Terminating q) (h : formatValue q = .ok text) :
    Rewrites name row (row.insert name text) ∧ valueOf name (row.insert name text) = q := by
  have hnew : cellValue name (row.insert name text) = .ok q := cellValue_insert hq h
  refine ⟨⟨by rw [valueOf_eq hold, hold], by rw [valueOf_eq hnew, hnew], fun column hne => ?_⟩,
    valueOf_eq hnew⟩
  rw [Dict.get?_insert, if_neg hne]

theorem transformRow_spec {transform : ℚ → ℚ}
    (hnew : ∀ old, transform old ≠ old → Terminating (transform old))
    (h : transformRow name transform row = .ok m) :
    Rewrites name row m.1 ∧ (m.2 = true ↔ valueOf name m.1 ≠ valueOf name row) := by
  obtain ⟨old, hold, h⟩ := bind_eq_ok.mp h
  split_ifs at h with hsame
  · cases h
    exact ⟨Rewrites.refl hold, by simp⟩
  · obtain ⟨text, htext, h⟩ := bind_eq_ok.mp h
    cases h
    obtain ⟨hrewrites, hvalue⟩ := rewrites_insert hold (hnew old hsame) htext
    refine ⟨hrewrites, ?_⟩
    rw [hvalue, valueOf_eq hold]
    exact iff_of_true rfl hsame

end Row

/-! ## The diff of rewritten rows -/

section Diff

variable {v : RateTableVersion} {pairs : List (CellRow × CellRow)}

def keyAt (v : RateTableVersion) (row : CellRow) : KeyTuple := (keyOf v.keyNames row).getD []

/-- Rows beside what they become, with a key each that no other row has. -/
structure Beside (v : RateTableVersion) (pairs : List (CellRow × CellRow)) : Prop where
  keyed : ∀ pair ∈ pairs, keyOf v.keyNames pair.1 = some (keyAt v pair.1)
  nodup : (pairs.map fun pair => keyAt v pair.1).Nodup
  rewrites : ∀ pair ∈ pairs, Rewrites v.value.name pair.1 pair.2
  ownColumn : v.value.name ∉ v.keyNames

theorem Beside.agree (h : Beside v pairs) {pair : CellRow × CellRow} (hpair : pair ∈ pairs) :
    Agree v.keyNames pair.2 pair.1 := fun column hcolumn =>
  (h.rewrites pair hpair).others column fun he => h.ownColumn (he ▸ hcolumn)

theorem Beside.keyOf_snd (h : Beside v pairs) {pair : CellRow × CellRow} (hpair : pair ∈ pairs) :
    keyOf v.keyNames pair.2 = some (keyAt v pair.1) := by
  rw [(h.agree hpair).keyOf (List.Subset.refl _), h.keyed pair hpair]

theorem indexRows_map {side : CellRow × CellRow → CellRow}
    (hkey : ∀ pair ∈ pairs, keyOf v.keyNames (side pair) = some (keyAt v pair.1))
    (hvalue : ∀ pair ∈ pairs, cellValue v.value.name (side pair) =
      .ok (valueOf v.value.name (side pair))) :
    indexRows v.keyNames v.value.name (pairs.map side) =
      .ok (pairs.map fun pair => (keyAt v pair.1, valueOf v.value.name (side pair))) := by
  rw [indexRows, mapM_eq_ok, List.forall₂_map_left_iff, List.forall₂_map_right_iff,
    List.forall₂_same]
  intro pair hpair
  exact bind_eq_ok.mpr ⟨_, rowKey_eq_ok.mpr (hkey pair hpair), bind_eq_ok.mpr
    ⟨_, hvalue pair hpair, rfl⟩⟩

theorem indexGet_eq {α : Type*} {l : List α} {key : α → KeyTuple} {value : α → ℚ}
    (hnodup : (l.map key).Nodup) {a : α} (ha : a ∈ l) :
    indexGet (l.map fun a => (key a, value a)) (key a) = some (value a) := by
  rw [indexGet, List.lookup_eq_some_iff]
  obtain ⟨pre, post, hsplit⟩ := List.append_of_mem (List.mem_reverse.mpr ha)
  refine ⟨pre.map fun a => (key a, value a), post.map fun a => (key a, value a), ?_, ?_⟩
  · rw [← List.map_reverse, hsplit, List.map_append, List.map_cons]
  · intro entry hentry
    obtain ⟨b, hb, rfl⟩ := List.mem_map.mp hentry
    have hnodup' : ((pre ++ a :: post).map key).Nodup := by
      rw [← hsplit, List.map_reverse, List.nodup_reverse]
      exact hnodup
    rw [List.map_append, List.map_cons, List.nodup_append] at hnodup'
    have hne := hnodup'.2.2 (key b) (List.mem_map_of_mem hb) (key a) List.mem_cons_self
    simpa using fun he => hne he.symm

/-- The diff of rewritten rows has one changed cell for each value that is another number. -/
theorem Beside.diffCells (h : Beside v pairs) :
    ∃ cells, diffCells (pairs.map Prod.fst) (pairs.map Prod.snd) v = .ok cells ∧
      cells.length = pairs.countP (fun pair =>
        valueOf v.value.name pair.2 ≠ valueOf v.value.name pair.1) ∧
      ∀ cell ∈ cells, cell.change = .changed := by
  set key : CellRow × CellRow → KeyTuple := fun pair => keyAt v pair.1
  have hbefore := indexRows_map h.keyed fun pair hpair => (h.rewrites pair hpair).old
  have hafter := indexRows_map (fun pair hpair => h.keyOf_snd hpair) fun pair hpair =>
    (h.rewrites pair hpair).new
  set before := pairs.map fun pair => (key pair, valueOf v.value.name pair.1)
  set after := pairs.map fun pair => (key pair, valueOf v.value.name pair.2)
  have hget : ∀ pair ∈ pairs, indexGet before (key pair) = some (valueOf v.value.name pair.1) :=
    fun pair hpair => indexGet_eq h.nodup hpair
  have hget' : ∀ pair ∈ pairs, indexGet after (key pair) = some (valueOf v.value.name pair.2) :=
    fun pair hpair => indexGet_eq h.nodup hpair
  have hkeys : ((before ++ after).map Prod.fst).dedup.Perm (pairs.map key) := by
    have hfst : (before ++ after).map Prod.fst = pairs.map key ++ pairs.map key := by
      rw [List.map_append, List.map_map, List.map_map]
      rfl
    rw [hfst]
    have hperm := List.Subset.dedup_append_left (List.Subset.refl (pairs.map key))
    rwa [h.nodup.dedup] at hperm
  refine ⟨_, bind_eq_ok.mpr ⟨before, hbefore, bind_eq_ok.mpr ⟨after, hafter, rfl⟩⟩, ?_, ?_⟩
  · rw [List.length_map, List.length_mergeSort, (hkeys.filter _).length_eq, ← List.countP_eq_length_filter,
      List.countP_map]
    apply List.countP_congr
    intro pair hpair
    simp only [Function.comp_apply, hget pair hpair, hget' pair hpair, decide_eq_true_eq, ne_eq,
      Option.some.injEq]
    exact not_congr eq_comm
  · intro cell hcell
    obtain ⟨k, hk, rfl⟩ := List.mem_map.mp hcell
    rw [List.mem_mergeSort, List.mem_filter, hkeys.mem_iff] at hk
    obtain ⟨pair, hpair, rfl⟩ := List.mem_map.mp hk.1
    rw [diffCell, hget pair hpair, hget' pair hpair]

end Diff

/-! ## The operations -/

section Operations

variable {engine : Engine} {v : RateTableVersion} {rows : List CellRow} {op : BulkOperation}
  {moved : List (CellRow × Bool)} {note : String} {derived : RateTableVersion}

def BulkOperation.Decimals : BulkOperation → Prop
  | floorAndCap floor cap => Terminating floor ∧ Terminating cap
  | upliftTable _ | upliftByFilter .. | rebaseToLevel _ => True

/-- A row that the operation is asked to change; only one operation has a filter. -/
def BulkOperation.Selects (row : CellRow) : BulkOperation → Prop
  | upliftByFilter _ filter => rowMatches row filter = .ok true
  | upliftTable _ | floorAndCap .. | rebaseToLevel _ => True

def rebased (reference old : ℚ) : ℚ := roundSig prec (old / reference)

/-- The count is of the cells that move. A rebase counts the cells that do not become 1, so it has
to leave as many cells as they are, other than ones, as it makes ones of others. -/
def BulkOperation.CountsMoves (v : RateTableVersion) (rows : List CellRow) : BulkOperation → Prop
  | rebaseToLevel baseLevel => ∀ row, referenceRow rows baseLevel = .ok row →
    let reference := valueOf v.value.name row
    let values := rows.map (valueOf v.value.name)
    values.countP (fun old => old ≠ 1 ∧ rebased reference old = old) =
      values.countP (fun old => old ≠ 1 ∧ rebased reference old = 1)
  | upliftTable _ | upliftByFilter .. | floorAndCap .. => True

/-- The recorded count is the diff's, which has changed cells only, the keys are in their order, and
a row outside the filter is the row it was. -/
structure Truthful (v : RateTableVersion) (op : BulkOperation) (rows rows' : List CellRow)
    (changed : ℕ) : Prop where
  counted : ∃ cells, diffCells rows rows' v = .ok cells ∧ cells.length = changed ∧
    ∀ cell ∈ cells, cell.change = .changed
  keys : rows'.map (keyOf v.keyNames) = rows.map (keyOf v.keyNames)
  outside : List.Forall₂ (fun row' row => ¬ op.Selects row → row' = row) rows' rows

/-- What an operation makes of one row. -/
structure RowMove (name : String) (op : BulkOperation) (counts : CellRow → CellRow → Prop)
    (row : CellRow) (m : CellRow × Bool) : Prop where
  rewrites : Rewrites name row m.1
  flag : m.2 = true ↔ counts row m.1
  outside : ¬ op.Selects row → m.1 = row

def BulkOperation.Counts (name : String) (row row' : CellRow) : BulkOperation → Prop
  | rebaseToLevel _ => valueOf name row' ≠ 1
  | upliftTable _ | upliftByFilter .. | floorAndCap .. => valueOf name row' ≠ valueOf name row

theorem terminating_uplift (percentage old : ℚ) : Terminating (uplift percentage old) :=
  terminating_roundSig _ _

theorem terminating_clamp {floor cap old : ℚ} (hfloor : Terminating floor) (hcap : Terminating cap)
    (h : max floor (min old cap) ≠ old) : Terminating (max floor (min old cap)) := by
  rcases max_choice floor (min old cap) with hmax | hmax
  · rw [hmax]
    exact hfloor
  · rw [hmax] at h ⊢
    rcases min_choice old cap with hmin | hmin
    · exact absurd hmin h
    · rw [hmin]
      exact hcap

/-- Every operation makes a row of each row, in their order. -/
theorem rows_spec (hvalid : Valid engine v) (hcells : v.cells = .rows rows) (hop : op.Decimals)
    (h : op.rows v rows = .ok moved) :
    List.Forall₂ (RowMove v.value.name op fun row row' => op.Counts v.value.name row row')
      rows moved := by
  have hsound := (validateResult_eq_ok.mp (hvalid rows hcells)).1
  cases op with
  | upliftTable percentage =>
    refine (mapM_eq_ok.mp h).imp fun row m hm => ?_
    obtain ⟨hrewrites, hflag⟩ := transformRow_spec (fun old _ => terminating_uplift _ old) hm
    exact ⟨hrewrites, hflag, fun hnot => absurd trivial hnot⟩
  | upliftByFilter percentage filter =>
    obtain ⟨_, -, h⟩ := bind_eq_ok.mp h
    have hall := mapM_eq_ok.mp h
    rw [List.forall₂_iff_zip] at hall ⊢
    refine ⟨hall.1, fun {row m} hmem => ?_⟩
    obtain ⟨matched, hmatched, hm⟩ := bind_eq_ok.mp (hall.2 hmem)
    cases matched with
    | true =>
      obtain ⟨hrewrites, hflag⟩ := transformRow_spec (fun old _ => terminating_uplift _ old) hm
      exact ⟨hrewrites, hflag, fun hnot => absurd hmatched hnot⟩
    | false =>
      cases hm
      obtain ⟨key, hkey⟩ := hsound.keyed row (List.of_mem_zip hmem).1
      obtain ⟨q, hq⟩ := cellValue_of_valueIssue (hsound.values row (List.of_mem_zip hmem).1 key hkey)
      exact ⟨Rewrites.refl hq, by simp [BulkOperation.Counts], fun _ => rfl⟩
  | floorAndCap floor cap =>
    obtain ⟨_, -, h⟩ := bind_eq_ok.mp h
    refine (mapM_eq_ok.mp h).imp fun row m hm => ?_
    obtain ⟨hrewrites, hflag⟩ := transformRow_spec
      (fun old hne => terminating_clamp hop.1 hop.2 hne) hm
    exact ⟨hrewrites, hflag, fun hnot => absurd trivial hnot⟩
  | rebaseToLevel baseLevel =>
    obtain ⟨_, -, h⟩ := bind_eq_ok.mp h
    obtain ⟨row, hrow, h⟩ := bind_eq_ok.mp h
    obtain ⟨reference, hreference, h⟩ := bind_eq_ok.mp h
    obtain ⟨_, -, h⟩ := bind_eq_ok.mp h
    refine (mapM_eq_ok.mp h).imp fun row m hm => ?_
    obtain ⟨old, hold, hm⟩ := bind_eq_ok.mp hm
    obtain ⟨text, htext, hm⟩ := bind_eq_ok.mp hm
    cases hm
    obtain ⟨hrewrites, hvalue⟩ := rewrites_insert hold (terminating_roundSig _ _) htext
    refine ⟨hrewrites, ?_, fun hnot => absurd trivial hnot⟩
    simp [BulkOperation.Counts, hvalue]

theorem rebase_values {baseLevel : KeyFilter} {reference : CellRow}
    (hreference : referenceRow rows baseLevel = .ok reference)
    (h : (BulkOperation.rebaseToLevel baseLevel).rows v rows = .ok moved) :
    List.Forall₂ (fun row m => valueOf v.value.name m.1 =
      rebased (valueOf v.value.name reference) (valueOf v.value.name row)) rows moved := by
  obtain ⟨_, -, h⟩ := bind_eq_ok.mp h
  obtain ⟨row, hrow, h⟩ := bind_eq_ok.mp h
  obtain rfl : row = reference := Except.ok.inj (hrow.symm.trans hreference)
  obtain ⟨q, hq, h⟩ := bind_eq_ok.mp h
  obtain ⟨_, -, h⟩ := bind_eq_ok.mp h
  refine (mapM_eq_ok.mp h).imp fun row m hm => ?_
  obtain ⟨old, hold, hm⟩ := bind_eq_ok.mp hm
  obtain ⟨text, htext, hm⟩ := bind_eq_ok.mp hm
  cases hm
  rw [(rewrites_insert hold (terminating_roundSig _ _) htext).2, valueOf_eq hold, valueOf_eq hq,
    rebased]

theorem countP_ne_one_add (l : List (ℚ × ℚ)) :
    l.countP (fun c => c.2 ≠ 1) + l.countP (fun c => c.1 ≠ 1 ∧ c.2 = 1) =
      l.countP (fun c => c.2 ≠ c.1) + l.countP fun c => c.1 ≠ 1 ∧ c.2 = c.1 := by
  induction l with
  | nil => rfl
  | cons c l ih =>
    simp only [List.countP_cons, decide_eq_true_eq]
    by_cases h1 : c.1 = 1 <;> by_cases h2 : c.2 = 1 <;> by_cases h3 : c.2 = c.1 <;>
      simp_all <;> omega

/-- The record of an operation on a valid version is truthful, unless the operation is a rebase that
leaves more or fewer cells other than ones than it makes ones. -/
theorem bulk_truthful_iff (hvalid : Valid engine v) (hown : v.value.name ∉ v.keyNames)
    (hop : op.Decimals) (h : applyBulk engine v op note = .ok derived) :
    ∃ rows rows' changed, v.cells = .rows rows ∧ derived.cells = .rows rows' ∧
      derived.createdBy = .operation op.kind v.version changed ∧
      (Truthful v op rows rows' changed ↔ op.CountsMoves v rows) := by
  simp only [applyBulk, bind_eq_ok, ensure_eq_ok, exists_const, pure_eq_ok, rowsOf_eq_ok] at h
  obtain ⟨-, rows, hcells, moved, hmoved, _, -, rfl⟩ := h
  refine ⟨rows, _, _, hcells, rfl, rfl, ?_⟩
  have hspec := rows_spec hvalid hcells hop hmoved
  have hsound := (validateResult_eq_ok.mp (hvalid rows hcells)).1
  obtain ⟨hlength, hspec⟩ := List.forall₂_iff_zip.mp hspec
  set zipped := rows.zip moved with hzipped
  have hfst : zipped.map Prod.fst = rows := List.map_fst_zip hlength.le
  have hsnd : zipped.map Prod.snd = moved := List.map_snd_zip hlength.ge
  obtain ⟨pairs, hpairs⟩ : ∃ pairs, pairs = zipped.map fun z => (z.1, z.2.1) := ⟨_, rfl⟩
  have hrows : pairs.map Prod.fst = rows := by
    rw [hpairs, List.map_map]
    exact hfst
  have hrows' : pairs.map Prod.snd = moved.map Prod.fst := by
    rw [hpairs, List.map_map, ← hsnd, List.map_map]
    rfl
  have hbeside : Beside v pairs := by
    refine ⟨fun pair hpair => ?_, ?_, fun pair hpair => ?_, hown⟩
    · obtain ⟨z, hz, rfl⟩ := List.mem_map.mp (hpairs ▸ hpair)
      obtain ⟨key, hkey⟩ := hsound.keyed z.1 (List.of_mem_zip hz).1
      rw [keyAt, hkey]
      rfl
    · have hnodup := hsound.nodup
      have hkeys : rows.map (keyOf v.keyNames) = (rows.map (keyAt v)).map some := by
        rw [List.map_map]
        refine List.map_congr_left fun row hrow => ?_
        obtain ⟨key, hkey⟩ := hsound.keyed row hrow
        rw [Function.comp_apply, keyAt, hkey]
        rfl
      rw [hkeys] at hnodup
      have hnodup' := hnodup.of_map some
      rwa [← hrows, List.map_map] at hnodup'
    · obtain ⟨z, hz, rfl⟩ := List.mem_map.mp (hpairs ▸ hpair)
      exact (hspec hz).rewrites
  obtain ⟨cells, hcells', hlen, hchanged⟩ := hbeside.diffCells
  rw [hrows, hrows'] at hcells'
  have hkeys : (moved.map Prod.fst).map (keyOf v.keyNames) = rows.map (keyOf v.keyNames) :=
    calc (moved.map Prod.fst).map (keyOf v.keyNames)
        = (pairs.map Prod.snd).map (keyOf v.keyNames) := by rw [hrows']
      _ = (pairs.map Prod.fst).map (keyOf v.keyNames) := by
        rw [List.map_map, List.map_map]
        exact List.map_congr_left fun pair hpair =>
          (hbeside.agree hpair).keyOf (List.Subset.refl _)
      _ = rows.map (keyOf v.keyNames) := by rw [hrows]
  have houtside : List.Forall₂ (fun row' row => ¬ op.Selects row → row' = row)
      (moved.map Prod.fst) rows := by
    rw [List.forall₂_map_left_iff]
    exact (List.forall₂_iff_zip.mpr ⟨hlength, fun hz => (hspec hz).outside⟩).flip
  have htruthful : Truthful v op rows (moved.map Prod.fst) (moved.countP fun m => m.2 = true) ↔
      pairs.countP (fun pair => valueOf v.value.name pair.2 ≠ valueOf v.value.name pair.1) =
        moved.countP fun m => m.2 = true := by
    constructor
    · rintro ⟨⟨cells', hcells'', hlen', -⟩, -, -⟩
      rw [hcells'] at hcells''
      cases hcells''
      exact hlen.symm.trans hlen'
    · intro hcount
      exact ⟨⟨cells, hcells', hlen.trans hcount, hchanged⟩, hkeys, houtside⟩
  have hcount : (moved.countP fun m => m.2 = true) = zipped.countP fun z => z.2.2 = true := by
    rw [← hsnd, List.countP_map]
    rfl
  rw [htruthful, hcount, hpairs, List.countP_map]
  have hflag : ∀ z ∈ zipped, (z.2.2 = true ↔ op.Counts v.value.name z.1 z.2.1) := fun z hz =>
    (hspec hz).flag
  cases op with
  | rebaseToLevel baseLevel =>
    obtain ⟨_, -, hmoved'⟩ := bind_eq_ok.mp hmoved
    obtain ⟨reference, hreference, -⟩ := bind_eq_ok.mp hmoved'
    have hvalues : ∀ z ∈ zipped, valueOf v.value.name z.2.1 =
        rebased (valueOf v.value.name reference) (valueOf v.value.name z.1) := fun z hz =>
      (List.forall₂_iff_zip.mp (rebase_values hreference hmoved)).2 hz
    set l := zipped.map fun z => (valueOf v.value.name z.1, valueOf v.value.name z.2.1) with hl
    have hadd := countP_ne_one_add l
    have hones : (zipped.countP fun z => z.2.2 = true) = l.countP fun c => c.2 ≠ 1 := by
      rw [hl, List.countP_map]
      apply List.countP_congr
      intro z hz
      simpa [BulkOperation.Counts] using hflag z hz
    have hmoves : zipped.countP ((fun pair => decide (valueOf v.value.name pair.2 ≠
        valueOf v.value.name pair.1)) ∘ fun z => (z.1, z.2.1)) = l.countP fun c => c.2 ≠ c.1 := by
      rw [hl, List.countP_map]
      rfl
    have hrebased : ∀ p : ℚ → ℚ → Bool, (l.countP fun c => p c.1 c.2) =
        (rows.map (valueOf v.value.name)).countP fun old =>
          p old (rebased (valueOf v.value.name reference) old) := by
      intro p
      rw [hl, List.countP_map, List.countP_map, ← hfst, List.countP_map]
      apply List.countP_congr
      intro z hz
      rw [Function.comp_apply, Function.comp_apply, Function.comp_apply, hvalues z hz]
    have hleft := hrebased fun old new => decide (old ≠ 1 ∧ new = old)
    have hmade := hrebased fun old new => decide (old ≠ 1 ∧ new = 1)
    rw [hones, hmoves]
    constructor
    · intro heq row hrow
      obtain rfl : row = reference := Except.ok.inj (hrow.symm.trans hreference)
      exact hleft.symm.trans (Eq.trans (by omega) hmade)
    · intro hmoves'
      have heq := hleft.trans ((hmoves' reference hreference).trans hmade.symm)
      omega
  | _ =>
    refine iff_of_true (List.countP_congr fun z hz => ?_) trivial
    simpa [BulkOperation.Counts] using (hflag z hz).symm

theorem diffCells_length {cells : List RateTableDiffCell} {rows' : List CellRow}
    (h : diffCells rows rows' v = .ok cells) : ∃ before after,
      indexRows v.keyNames v.value.name rows = .ok before ∧
      indexRows v.keyNames v.value.name rows' = .ok after ∧
      cells.length = (((before ++ after).map Prod.fst).dedup.filter fun key =>
        indexGet before key ≠ indexGet after key).length := by
  obtain ⟨before, hbefore, h⟩ := bind_eq_ok.mp h
  obtain ⟨after, hafter, h⟩ := bind_eq_ok.mp h
  cases h
  refine ⟨before, after, hbefore, hafter, ?_⟩
  rw [List.length_map, List.length_mergeSort]

end Operations

/-! ## A rebase of two cells -/

/-- An engine that reads every text as a number. -/
def numberEngine : Engine :=
  { literalEngine with
    evaluate := fun _ _ => some (.int 1)
    evaluate_congr := fun _ _ _ _ => rfl }

def levelRow (level value : String) : CellRow := (Dict.empty.insert "age" level).insert "rel" value

def levelTable (young old : String) : RateTableVersion :=
  ⟨"age", 1, true, [⟨"age", .string, none, none⟩], ⟨"rel", .relativity, "factor", none, none⟩, none,
    .rows [levelRow "young" young, levelRow "old" old], "", none, .seed⟩

theorem valid_levelTable : Valid numberEngine (levelTable "1" "2") := by
  intro rows h
  cases h
  decide

def rebasedTable : RateTableVersion :=
  { levelTable "0.5" "1" with
    version := 2, createdBy := .operation .rebaseToLevel 1 1 }

def toOld : BulkOperation := .rebaseToLevel (Dict.empty.insert "age" ["old"])

theorem rebase_levelTable :
    applyBulk numberEngine (levelTable "1" "2") toOld "" = .ok rebasedTable := by with_unfolding_all decide

/-- A rebase of 1 and 2 to the second changes both cells and counts one. -/
theorem rebase_miscounted : ¬ ∀ engine v op note derived, Valid engine v →
    v.value.name ∉ v.keyNames → op.Decimals → applyBulk engine v op note = .ok derived →
    ∃ rows rows' changed, v.cells = .rows rows ∧ derived.cells = .rows rows' ∧
      derived.createdBy = .operation op.kind v.version changed ∧
      Truthful v op rows rows' changed := by
  intro h
  obtain ⟨rows, rows', changed, hrows, hrows', hcount, htruthful⟩ :=
    h numberEngine (levelTable "1" "2") toOld "" rebasedTable valid_levelTable (by decide) trivial
      rebase_levelTable
  cases hrows
  cases hrows'
  cases hcount
  obtain ⟨cells, hcells, hlength, -⟩ := htruthful.counted
  obtain ⟨before, after, hbefore, hafter, hlength'⟩ := diffCells_length hcells
  have hbefore' : indexRows ["age"] "rel" [levelRow "young" "1", levelRow "old" "2"] =
      .ok [(["young"], 1), (["old"], 2)] := by with_unfolding_all decide
  have hafter' : indexRows ["age"] "rel" [levelRow "young" "0.5", levelRow "old" "1"] =
      .ok [(["young"], 1 / 2), (["old"], 1)] := by with_unfolding_all decide
  cases hbefore.symm.trans hbefore'
  cases hafter.symm.trans hafter'
  rw [hlength] at hlength'
  exact absurd hlength' (by with_unfolding_all decide)

theorem floorAndCap_truthful : ∃ rows rows' changed,
    (levelTable "1" "2").cells = .rows rows ∧ (levelTable "1.5" "2").cells = .rows rows' ∧
      Creation.operation .floorAndCap 1 1 = .operation .floorAndCap 1 changed ∧
      (Truthful (levelTable "1" "2") (.floorAndCap (3 / 2) 3) rows rows' changed ↔
        (BulkOperation.floorAndCap (3 / 2) 3).CountsMoves (levelTable "1" "2") rows) :=
  @bulk_truthful_iff numberEngine (levelTable "1" "2") (.floorAndCap (3 / 2) 3) ""
    { levelTable "1.5" "2" with version := 2, createdBy := .operation .floorAndCap 1 1 }
    valid_levelTable (by decide) ⟨⟨15, 1, by norm_num⟩, ⟨3, 0, by norm_num⟩⟩
    (by with_unfolding_all decide)

end GiPricing.RateTables
