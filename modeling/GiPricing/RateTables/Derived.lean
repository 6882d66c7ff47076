import GiPricing.RateTables.RoundTrip
import GiPricing.RateTables.Store

/-! # Runs of writes

What a derived version keeps of its base, and the completeness of every stored version.
-/

namespace GiPricing.RateTables

open Failure Transition

variable {host : Host} {t t' : Table} {w : Write} {base derived : RateTableVersion}

/-! ## One write -/

def Write.version? : Write → Option ℕ
  | .seed _ => none
  | .bulk version _ _ | .edit version _ _ | .importFile version _ _ => some version

/-- The stored form of a version: the declared columns of its rows. -/
structure Stores (derived stored : RateTableVersion) : Prop where
  definition : stored = { derived with cells := stored.cells }
  cells : ∃ rows rows', derived.cells = .rows rows ∧ stored.cells = .rows rows' ∧
    List.Forall₂ (Agree derived.header) rows' rows

theorem persistNewVersion_eq_ok (h : t.persistNewVersion derived = .ok t') :
    ∃ stored, Stores derived stored ∧
      t' = { t with currentVersion := derived.version, versions := t.versions ++ [stored] } := by
  simp only [Table.persistNewVersion, bind_eq_ok, ensure_eq_ok, exists_const, pure_eq_ok,
    mapM_eq_ok, cellsOf_eq_ok] at h
  obtain ⟨rows, hrows, lines, hlines, -, rfl⟩ := h
  exact ⟨_, ⟨rfl, rows, _, rowsOf_eq_ok.mp hrows, rfl, forall₂_dictZip hlines⟩, rfl⟩

/-- What a saved write has added: a derived version of a base of the table, or a seed. -/
inductive Saved (host : Host) (t : Table) (w : Write) (t' : Table) : Prop
  | derived (base derived stored : RateTableVersion) (hversion : w.version? = some base.version)
      (hbase : base ∈ t.versions) (hderive : w.derive host base = .ok derived)
      (hseed : derived.seededFrom = base.seededFrom) (hstores : Stores derived stored)
      (ht : t' = { t with
        currentVersion := derived.version, versions := t.versions ++ [stored] })
  | seed (r : SeedRequest) (number : ℕ) (derived stored : RateTableVersion) (hw : w = .seed r)
      (hderive : seedFromModel host.engine t.slug number r = .ok derived)
      (hstores : Stores derived stored)
      (ht : t' = { t with
        currentVersion := derived.version, versions := t.versions ++ [stored] })

theorem saveDerived_saved {version : ℕ} (hversion : w.version? = some version)
    (h : t.saveDerived host w version = .ok t') : Saved host t w t' := by
  simp only [Table.saveDerived, Table.loadVersion, guardSeedLineage, bind_eq_ok, require_eq_ok,
    ensure_eq_ok, exists_const] at h
  obtain ⟨base, hbase, derived, hderive, hseed, h⟩ := h
  obtain ⟨stored, hstores, rfl⟩ := persistNewVersion_eq_ok h
  have hnumber := List.find?_some hbase
  simp only [decide_eq_true_eq] at hnumber
  exact .derived base derived stored (hnumber ▸ hversion) (List.mem_of_find?_eq_some hbase) hderive
    hseed hstores rfl

theorem save_saved (h : t.save host w = .ok t') : Saved host t w t' := by
  cases w with
  | seed r =>
    simp only [Table.save, Table.saveSeed, bind_eq_ok] at h
    obtain ⟨derived, hderive, h⟩ := h
    have hpersist : t.persistNewVersion derived = .ok t' := by
      split_ifs at h
      · exact h
      · obtain ⟨u, -, h⟩ := bind_eq_ok.mp h
        exact h
    obtain ⟨stored, hstores, rfl⟩ := persistNewVersion_eq_ok hpersist
    exact .seed r _ derived stored rfl hderive hstores rfl
  | bulk version op note => exact saveDerived_saved rfl h
  | edit version edits note => exact saveDerived_saved rfl h
  | importFile version content filename => exact saveDerived_saved rfl h

theorem step_cases (h : step host t w = some t') :
    Saved host t w t' ∧ t.save host w = .ok t' ∨ t' = t ∧ ∃ e, t.save host w = .error e := by
  rw [step] at h
  cases hs : t.save host w with
  | ok q =>
    rw [hs] at h
    cases h
    exact Or.inl ⟨save_saved hs, rfl⟩
  | error e =>
    rw [hs] at h
    cases h
    exact Or.inr ⟨rfl, e, rfl⟩

/-! ## The definition of a derived version -/

/-- A version with the definition and the seed lineage of its base, one number up. -/
structure Derives (base stored : RateTableVersion) : Prop where
  rateable : stored.rateable = base.rateable
  keys : stored.keys = base.keys
  value : stored.value = base.value
  defaultRow : stored.defaultRow = base.defaultRow
  seededFrom : stored.seededFrom = base.seededFrom
  version : stored.version = base.version + 1

/-- A write adds a version derived from its base, or it leaves the table as it is. -/
def KeepsDefinition (host : Host) (t : Table) (w : Write) (t' : Table) : Prop :=
  (∀ e, t.save host w = .error e → t' = t) ∧
    ∀ number, w.version? = some number → t.save host w = .ok t' →
      ∃ base, t.loadVersion number = .ok base ∧
        ∃ stored, Derives base stored ∧ t'.versions = t.versions ++ [stored] ∧
          t'.currentVersion = stored.version

/-- No file is imported into a version that is not rateable. -/
def RateableImport (host : Host) (t : Table) (w : Write) (t' : Table) : Prop :=
  ∀ number content filename, w = .importFile number content filename → t.save host w = .ok t' →
    ∀ base, t.loadVersion number = .ok base → base.rateable = true

theorem applyBulk_eq_ok {engine : Engine} {op : BulkOperation} {note : String}
    (h : applyBulk engine base op note = .ok derived) :
    ∃ rows moved creation, base.rowsOf = .ok rows ∧ op.rows base rows = .ok moved ∧
      validateResult engine base (moved.map Prod.fst) = .ok ⟨⟩ ∧
      derived = base.newVersion (moved.map Prod.fst) note creation := by
  simp only [applyBulk, bind_eq_ok, ensure_eq_ok, exists_const, pure_eq_ok] at h
  obtain ⟨-, rows, hrows, moved, hmoved, _, hvalid, rfl⟩ := h
  exact ⟨rows, moved, _, hrows, hmoved, hvalid, rfl⟩

theorem editDerived_eq_ok {engine : Engine} {edits : List CellRow} {note : String}
    (h : editDerived engine base edits note = .ok derived) :
    ∃ rows, applyCellEdits engine base edits = .ok rows ∧
      derived = ⟨base.slug, base.version + 1, base.rateable, base.keys, base.value, base.defaultRow,
        .rows rows, note, base.seededFrom, .edit base.version edits.length⟩ := by
  simp only [editDerived, bind_eq_ok, pure_eq_ok] at h
  obtain ⟨rows, hrows, rfl⟩ := h
  exact ⟨rows, hrows, rfl⟩

def Write.isImport : Write → Bool
  | .importFile .. => true
  | _ => false

/-- What a derived version has of its base; an import makes it rateable. -/
theorem derive_eq_ok (h : w.derive host base = .ok derived) :
    derived.keys = base.keys ∧ derived.value = base.value ∧ derived.defaultRow = base.defaultRow ∧
      derived.version = base.version + 1 ∧ derived.rateable = (w.isImport || base.rateable) := by
  cases w with
  | seed r => cases h
  | bulk version op note =>
    obtain ⟨rows, moved, creation, -, -, -, rfl⟩ := applyBulk_eq_ok h
    exact ⟨rfl, rfl, rfl, rfl, rfl⟩
  | edit version edits note =>
    obtain ⟨rows, -, rfl⟩ := editDerived_eq_ok h
    exact ⟨rfl, rfl, rfl, rfl, rfl⟩
  | importFile version content filename =>
    obtain ⟨result, -, rfl⟩ := map_eq_ok.mp h
    exact ⟨rfl, rfl, rfl, rfl, rfl⟩

theorem loadVersion_eq_ok {number : ℕ} (h : t.loadVersion number = .ok base) :
    base ∈ t.versions ∧ base.version = number := by
  have hfind := require_eq_ok.mp h
  have hnumber := List.find?_some hfind
  exact ⟨List.mem_of_find?_eq_some hfind, by simpa using hnumber⟩

theorem save_eq_ok {number : ℕ} (hnumber : w.version? = some number)
    (h : t.save host w = .ok t') : ∃ base derived stored, t.loadVersion number = .ok base ∧
      w.derive host base = .ok derived ∧ derived.seededFrom = base.seededFrom ∧
      Stores derived stored ∧
      t' = { t with currentVersion := derived.version, versions := t.versions ++ [stored] } := by
  have hsave : t.saveDerived host w number = .ok t' := by
    cases w <;> cases hnumber <;> exact h
  simp only [Table.saveDerived, guardSeedLineage, bind_eq_ok, ensure_eq_ok, exists_const] at hsave
  obtain ⟨base, hbase, derived, hderive, hseed, hpersist⟩ := hsave
  obtain ⟨stored, hstores, ht⟩ := persistNewVersion_eq_ok hpersist
  exact ⟨base, derived, stored, hbase, hderive, hseed, hstores, ht⟩

/-- A write keeps the definition exactly where it is no import into a version that is not
rateable. -/
theorem keepsDefinition_iff (h : step host t w = some t') :
    KeepsDefinition host t w t' ↔ RateableImport host t w t' := by
  constructor
  · rintro ⟨-, hkeeps⟩ number content filename rfl hsave base hbase
    obtain ⟨base', hbase', stored, hderives, hversions, -⟩ := hkeeps number rfl hsave
    obtain rfl : base = base' := Except.ok.inj (hbase.symm.trans hbase')
    obtain ⟨base', derived, stored', hbase', hderive, -, hstores, rfl⟩ := save_eq_ok rfl hsave
    obtain rfl : base = base' := Except.ok.inj (hbase.symm.trans hbase')
    obtain rfl : stored' = stored := (List.cons.inj (List.append_cancel_left hversions)).1
    obtain ⟨-, -, -, -, hrate⟩ := derive_eq_ok hderive
    rw [← hderives.rateable, hstores.definition]
    exact hrate
  · intro hrateable
    refine ⟨fun e he => ?_, fun number hnumber hsave => ?_⟩
    · rcases step_cases h with ⟨-, hok⟩ | ⟨rfl, -⟩
      · rw [he] at hok
        cases hok
      · rfl
    · obtain ⟨base, derived, stored, hbase, hderive, hseed, hstores, rfl⟩ := save_eq_ok hnumber hsave
      obtain ⟨hkeys, hvalue, hdefault, hnext, hrate⟩ := derive_eq_ok hderive
      have hrate' : derived.rateable = base.rateable := by
        cases w with
        | seed r => cases hderive
        | bulk version op note => exact hrate
        | edit version edits note => exact hrate
        | importFile version content filename =>
          cases hnumber
          rw [hrate, hrateable number content filename rfl hsave base hbase]
          rfl
      have hdef := hstores.definition
      refine ⟨base, hbase, stored, ?_, rfl, by rw [hdef]⟩
      rw [hdef]
      exact ⟨hrate', hkeys, hvalue, hdefault, hseed, hnext⟩

/-- Over every run of writes on any table, each derived version keeps the definition of its base
exactly where no file is imported into a version that is not rateable. -/
theorem definitions_kept_iff (host : Host) (t : Table) (ws : List Write) :
    Always (step host) (KeepsDefinition host) t ws ↔ Always (step host) (RateableImport host) t ws :=
  @always_congr _ _ (step host) _ _ (fun _ => True) t (fun _ _ _ _ _ _ => trivial)
    (fun _ _ _ _ h => keepsDefinition_iff h) trivial ws

def diagnosticVersion : RateTableVersion := { ageTable .string "young" with rateable := false }

def ageFile : ByteArray := (csvText literalHost [["age", "rel"], ["young", "1"]]).toUTF8

theorem diagnosticVersion_import : importConfirmed literalHost diagnosticVersion ageFile "age.csv" =
    .ok ⟨[ageRow "young"], "age.csv", "", "passed", 1⟩ := by
  obtain ⟨hsound, hcovers⟩ := validateResult_eq_ok.mp (valid_ageTable .string _ rfl)
  refine (checkedImport_eq_ok (by decide)).mpr ⟨[ageRow "young"], [["young", "1"]], rfl,
    parseCsv_csvText_ok (by decide), by decide, checkImportTypes_eq_ok.mpr ?_,
    keyDomainsOf_sound hsound, hsound, hcovers, rfl⟩
  intro key hkey htype
  rw [List.mem_singleton.mp hkey] at htype
  exact absurd rfl htype

/-- The version an import derives from a version that is not rateable is rateable. -/
theorem import_not_kept : ¬ ∀ host t ws, Always (step host) (KeepsDefinition host) t ws := by
  intro h
  let t : Table := ⟨"age", 1, [diagnosticVersion]⟩
  let w : Write := .importFile 1 ageFile "age.csv"
  have hderive : w.derive literalHost diagnosticVersion =
      .ok (importDerived diagnosticVersion ⟨[ageRow "young"], "age.csv", "", "passed", 1⟩ "age.csv") :=
    by rw [Write.derive, diagnosticVersion_import, Except.map]
  obtain ⟨t', hpersist⟩ : ∃ t', t.persistNewVersion (importDerived diagnosticVersion
      ⟨[ageRow "young"], "age.csv", "", "passed", 1⟩ "age.csv") = .ok t' := ⟨_, rfl⟩
  have hsave : t.save literalHost w = .ok t' :=
    bind_eq_ok.mpr ⟨diagnosticVersion, rfl, bind_eq_ok.mpr ⟨_, hderive,
      bind_eq_ok.mpr ⟨⟨⟩, ensure_eq_ok.mpr rfl, hpersist⟩⟩⟩
  have hstep : step literalHost t w = some t' := by rw [step, hsave]
  have hrateable := (keepsDefinition_iff hstep).mp (h literalHost t [w] t' hstep).1
  exact absurd (hrateable 1 ageFile "age.csv" rfl hsave diagnosticVersion rfl) (by decide)

end GiPricing.RateTables
