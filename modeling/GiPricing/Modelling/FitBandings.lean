import GiPricing.Factors.Resolve
import GiPricing.Modelling.Bandings

/-! # The bandings of a fit

A fit checks the bandings of its factors before it resolves them: a band that no row reaches is
refused, and a thin one is reported. The bandings that the resolution applies are those of banding
factors, over a column, and those of expression factors, over the result of a formula.
-/

namespace GiPricing.Bandings

open Factors Failure

variable {F ρ : Type} [LinearOrder F]

/-- A banding with its name, what it is cut over and its floors. -/
structure StoredBanding (F : Type) [LinearOrder F] extends Banding F where
  id : UUID
  slug : String
  version : ℕ
  column : Option String
  sourceExpression : Option String
  minExposure : ℚ
  minClaims : ℕ
  failsOnThin : Bool
  overOne : column.isNone ≠ sourceExpression.isNone

structure Frame (ρ : Type) where
  rows : List ρ
  columns : List String

abbrev Cell (F : Type) := Option (Option F)

inductive Measure
  | exposure
  | claims
  deriving DecidableEq

/-- `BandingWarning`: a band below a floor. -/
structure Warning where
  slug : String
  version : ℕ
  measure : Measure
  label : String
  index : ℕ
  observed : ℚ
  minimum : ℚ
  deriving DecidableEq

inductive FitRefusal
  | missingFloor (slug : String) (measure : Measure)
  | bandEmpty (slug : String) (labels : List String)
  | notABand (slug : String)
  | belowMinimum (slug : String)
  | resolution (slug : String)
  deriving DecidableEq

/-- What the check reads of a frame: the cells of a column, the finite floats, the exposure and the
claims that are published for some rows, and whether a factor's formula gives numbers, with its
results; whether a grouping resolves, and whether a formula is the one of a banding. -/
structure Reading (F ρ : Type) where
  cell : String → ρ → Cell F
  finite : F → Bool
  exposureYears : List ρ → ℚ
  claimCount : List ρ → ℕ
  formula : Factor → Frame ρ → Option (Bool × (ρ → Cell F))
  resolvesGrouping : Factor → Frame ρ → Bool
  sameExpression : Factor → String → Bool

abbrev BandingMap (F : Type) [LinearOrder F] := UUID → Option (StoredBanding F)

section Check

variable (reading : Reading F ρ) (frame : Frame ρ)

/-- The rows that the statistics keep: an infinite value, or one that is no number, is no band's. -/
def keeps : Cell F → Bool
  | none => true
  | some none => false
  | some (some x) => reading.finite x

def keptRows (cell : ρ → Cell F) : List ρ := frame.rows.filter fun row => keeps reading (cell row)

def floorOf (b : StoredBanding F) : Measure → ℚ
  | .exposure => b.minExposure
  | .claims => b.minClaims

def measureColumn : Measure → String
  | .exposure => "exposure_years"
  | .claims => "claim_count"

/-- What is published of the rows of a band. A column that the frame lacks is zero. -/
def observedOf (measure : Measure) (rows : List ρ) : ℚ :=
  if measureColumn measure ∈ frame.columns then match measure with
    | .exposure => reading.exposureYears rows
    | .claims => reading.claimCount rows
  else 0

/-- The floors that the rows of a band do not reach. -/
def breachesOf (b : StoredBanding F) (label : String) (index : ℕ) (rows : List ρ) : List Warning :=
  [Measure.exposure, Measure.claims].filterMap fun measure =>
    if 0 < floorOf b measure ∧ observedOf reading frame measure rows < floorOf b measure then
      some ⟨b.slug, b.version, measure, label, index, observedOf reading frame measure rows,
        floorOf b measure⟩
    else none

/-- `check_banding`. -/
def checkBanding (b : StoredBanding F) (cell : ρ → Cell F) : Except FitRefusal (List Warning) := do
  ensure (b.minExposure ≤ 0 ∨ measureColumn .exposure ∈ frame.columns)
    (.missingFloor b.slug .exposure)
  ensure (b.minClaims = 0 ∨ measureColumn .claims ∈ frame.columns) (.missingFloor b.slug .claims)
  let rows := keptRows reading frame cell
  let labels ← (b.applyBanding id (rows.map cell)).mapError fun _ => .resolution b.slug
  let empty := b.labels.filter fun label => label ∉ labels
  ensure (empty = []) (.bandEmpty b.slug empty)
  -- the null level has no index among the labels
  ensure (∀ level ∈ b.nullLevel, level ∉ labels) (.notABand b.slug)
  let warnings := b.labels.zipIdx.flatMap fun entry => breachesOf reading frame b entry.1 entry.2
    (((rows.zip labels).filter fun p => p.2 = entry.1).map Prod.fst)
  ensure (warnings = [] ∨ b.failsOnThin = false) (.belowMinimum b.slug)
  return warnings

variable (bandings : BandingMap F)

/-- The loop of `check_fit_bandings`, from the ids that are seen. -/
def checkFitFrom (seen : List UUID) (warnings : List Warning) :
    List Factor → Except FitRefusal (List Warning)
  | [] => .ok warnings
  | f :: factors =>
    if f.type ≠ .banding ∨ ∃ id ∈ f.banding_id, id ∈ seen then
      checkFitFrom seen warnings factors
    else match f.banding_id.bind bandings with
      | none => checkFitFrom seen warnings factors
      | some b => match b.column with
        | none => checkFitFrom seen warnings factors
        | some column =>
          if column ∈ frame.columns then do
            let found ← checkBanding reading frame b (reading.cell column)
            checkFitFrom (b.id :: seen) (warnings ++ found) factors
          else checkFitFrom seen warnings factors

/-- `check_fit_bandings`. -/
def checkFitBandings (factors : List Factor) : Except FitRefusal (List Warning) :=
  checkFitFrom reading frame bandings [] [] factors

/-! ## What the resolution applies -/

abbrev Applied (F ρ : Type) [LinearOrder F] := StoredBanding F × (ρ → Cell F)

/-- `_banding` and `_column_matches`, or `_expression_matches`; then `apply_banding`. -/
def applyTo (f : Factor) (belongs : StoredBanding F → Bool) (cell : ρ → Cell F) :
    Except FitRefusal (List (Applied F ρ)) := do
  let b ← require (f.banding_id.bind bandings) (.resolution f.slug)
  ensure (belongs b = true) (.resolution f.slug)
  let _ ← (b.applyBanding id (frame.rows.map cell)).mapError fun _ => .resolution f.slug
  return [(b, cell)]

/-- The bandings that the first pass of `resolve_factor_columns` applies for a factor. -/
def appliedOf (f : Factor) : Except FitRefusal (List (Applied F ρ)) := do
  ensure (f.prohibited = false ∧ f.intent ≠ .offset ∧ f.intent ≠ .diagnostic ∧
    ∀ c ∈ f.source_columns, c ∈ frame.columns) (.resolution f.slug)
  match f.type with
  | .interaction | .identity => return []
  | .banding => do
    ensure (f.source ∈ frame.columns) (.resolution f.slug)
    applyTo frame bandings f (fun b => b.column = some f.source) (reading.cell f.source)
  | .grouping => do
    ensure (reading.resolvesGrouping f frame = true) (.resolution f.slug)
    return []
  | .expression => do
    let (numeric, cell) ← require (reading.formula f frame) (.resolution f.slug)
    ensure (f.banding_id.isSome = numeric) (.resolution f.slug)
    if numeric then
      applyTo frame bandings f (fun b => b.sourceExpression.any (reading.sameExpression f)) cell
    else return []
  | .spline | .polynomial | .offset => .error (.resolution f.slug)

def appliedBandings (factors : List Factor) : Except FitRefusal (List (Applied F ρ)) :=
  (factors.mapM (appliedOf reading frame bandings)).map List.flatten

end Check

/-! ## What the check says of a banding -/

section Spec

variable {reading : Reading F ρ} {frame : Frame ρ} {b : StoredBanding F} {cell : ρ → Cell F}
  {bandings : BandingMap F} {warnings found : List Warning} {seen : List UUID}
  {factors : List Factor} {f : Factor} {p : Applied F ρ}

def bandRows (reading : Reading F ρ) (frame : Frame ρ) (p : Applied F ρ) (label : String) :
    List ρ :=
  (keptRows reading frame p.2).filter fun row => p.1.cellLabel ((p.2 row).bind id) = some label

def breaches (reading : Reading F ρ) (frame : Frame ρ) (p : Applied F ρ) : List Warning :=
  p.1.labels.zipIdx.flatMap fun entry =>
    breachesOf reading frame p.1 entry.1 entry.2 (bandRows reading frame p entry.1)

/-- Some kept row is in each band. -/
def NoEmptyBand (reading : Reading F ρ) (frame : Frame ρ) (p : Applied F ρ) : Prop :=
  ∀ label ∈ p.1.labels, ∃ row ∈ keptRows reading frame p.2,
    p.1.Labelled ((p.2 row).bind id) label

/-- No band is empty, and every thin one is reported. -/
def Checked (reading : Reading F ρ) (frame : Frame ρ) (warnings : List Warning) (p : Applied F ρ) :
    Prop := NoEmptyBand reading frame p ∧ breaches reading frame p ⊆ warnings

theorem zip_filter_eq {rows : List ρ} {labels : List String} {label : String}
    (h : List.Forall₂ (fun row l => b.cellLabel ((cell row).bind id) = some l) rows labels) :
    ((rows.zip labels).filter fun q => q.2 = label).map Prod.fst =
      rows.filter fun row => b.cellLabel ((cell row).bind id) = some label := by
  induction h with
  | nil => rfl
  | @cons row l rows labels hrow _ ih =>
    rw [List.zip_cons_cons, List.filter_cons, List.filter_cons, hrow]
    by_cases hl : l = label
    · rw [if_pos (by simpa using hl), if_pos (by simpa using hl), List.map_cons, ih]
    · rw [if_neg (by simpa using hl), if_neg (by simpa using hl), ih]

theorem checked_of_checkBanding (h : checkBanding reading frame b cell = .ok found) :
    NoEmptyBand reading frame (b, cell) ∧ found = breaches reading frame (b, cell) := by
  simp only [checkBanding, bind_eq_ok, ensure_eq_ok, mapError_eq_ok, pure_eq_ok] at h
  obtain ⟨_, -, _, -, labels, hlabels, _, hempty, _, -, _, -, rfl⟩ := h
  rw [Banding.applyBanding_eq_ok, List.map_map, List.forall₂_map_left_iff] at hlabels
  constructor
  · intro label hlabel
    have hin : label ∈ labels := by
      by_contra hnot
      have := List.filter_eq_nil_iff.mp hempty label hlabel
      exact this (by simpa using hnot)
    obtain ⟨row, hrow, hvalue⟩ := exists_of_forall₂ (List.Forall₂.flip hlabels) hin
    exact ⟨row, hrow, Banding.labelled_iff.mpr hvalue⟩
  · rw [breaches]
    apply List.flatMap_congr
    intro entry _
    congr 1
    exact zip_filter_eq hlabels

theorem name_of_breach {w : Warning} (h : w ∈ breaches reading frame p) :
    w.slug = p.1.slug ∧ w.version = p.1.version := by
  obtain ⟨entry, -, hw⟩ := List.mem_flatMap.mp h
  obtain ⟨measure, -, hvalue⟩ := List.mem_filterMap.mp hw
  rw [Option.ite_none_right_eq_some] at hvalue
  obtain rfl := Option.some.inj hvalue.2
  exact ⟨rfl, rfl⟩

/-- Bandings under their own ids, of which no two have one name. -/
structure WellFormed (bandings : BandingMap F) : Prop where
  own : ∀ id b, bandings id = some b → b.id = id
  named : ∀ id id' b b', bandings id = some b → bandings id' = some b' → b.slug = b'.slug →
    b.version = b'.version → b = b'

/-- A banding over a column that passed the check, with its warnings among these. -/
def Passed (reading : Reading F ρ) (frame : Frame ρ) (warnings : List Warning)
    (b : StoredBanding F) : Prop :=
  ∃ column, b.column = some column ∧ ∃ found,
    checkBanding reading frame b (reading.cell column) = .ok found ∧ found ⊆ warnings

theorem Passed.mono {warnings' : List Warning} (h : Passed reading frame warnings b)
    (hsub : warnings ⊆ warnings') : Passed reading frame warnings' b := by
  obtain ⟨column, hcolumn, found, hfound, hin⟩ := h
  exact ⟨column, hcolumn, found, hfound, fun w hw => hsub (hin hw)⟩

/-- What the loop keeps: the ids that are seen are of bandings that passed, and every warning is a
breach of a banding over a column. -/
structure LoopInv (reading : Reading F ρ) (frame : Frame ρ) (bandings : BandingMap F)
    (seen : List UUID) (warnings : List Warning) : Prop where
  passed : ∀ id ∈ seen, ∀ b, bandings id = some b → Passed reading frame warnings b
  source : ∀ w ∈ warnings, ∃ id b, bandings id = some b ∧ b.column.isSome ∧
    w.slug = b.slug ∧ w.version = b.version

/-- A run of the loop keeps the warnings, passes the banding of every banding factor whose column is
there, and keeps the invariant. -/
theorem checkFitFrom_spec (hmap : WellFormed bandings)
    (hinv : LoopInv reading frame bandings seen warnings)
    (h : checkFitFrom reading frame bandings seen warnings factors = .ok found) :
    warnings ⊆ found ∧
      (∀ w ∈ found, ∃ id b, bandings id = some b ∧ b.column.isSome ∧
        w.slug = b.slug ∧ w.version = b.version) ∧
      ∀ f ∈ factors, f.type = .banding → ∀ b, f.banding_id.bind bandings = some b → ∀ column,
        b.column = some column → column ∈ frame.columns → Passed reading frame found b := by
  induction factors generalizing seen warnings with
  | nil =>
    obtain rfl := Except.ok.inj h
    exact ⟨fun _ hw => hw, hinv.source, by rintro f ⟨⟩⟩
  | cons f factors ih =>
    rw [checkFitFrom] at h
    split_ifs at h with hskip
    · obtain ⟨hsub, hsource, hpassed⟩ := ih hinv h
      refine ⟨hsub, hsource, ?_⟩
      intro g hg htype b hb column hcolumn hin
      rcases List.mem_cons.mp hg with rfl | hg
      · obtain ⟨id, hid, hseen⟩ := hskip.resolve_left (not_not.mpr htype)
        rw [Option.mem_def.mp hid, Option.bind_some] at hb
        exact (hinv.passed id hseen b hb).mono hsub
      · exact hpassed g hg htype b hb column hcolumn hin
    · cases hb : f.banding_id.bind bandings with
      | none =>
        simp only [hb] at h
        obtain ⟨hsub, hsource, hpassed⟩ := ih hinv h
        refine ⟨hsub, hsource, List.forall_mem_cons.mpr ⟨?_, hpassed⟩⟩
        intro _ b' hb'
        rw [hb] at hb'
        cases hb'
      | some b =>
        cases hcolumn : b.column with
        | none =>
          simp only [hb, hcolumn] at h
          obtain ⟨hsub, hsource, hpassed⟩ := ih hinv h
          refine ⟨hsub, hsource, List.forall_mem_cons.mpr ⟨?_, hpassed⟩⟩
          intro _ b' hb' column' hcolumn'
          rw [hb] at hb'
          cases hb'
          rw [hcolumn] at hcolumn'
          cases hcolumn'
        | some column =>
          simp only [hb, hcolumn] at h
          split_ifs at h with hin
          · obtain ⟨new, hnew, hrest⟩ := bind_eq_ok.mp h
            have hpass : Passed reading frame (warnings ++ new) b :=
              ⟨column, hcolumn, new, hnew, List.subset_append_right _ _⟩
            obtain ⟨id, hid, hbid⟩ := Option.bind_eq_some_iff.mp hb
            have hown := hmap.own id b hbid
            have hinv' : LoopInv reading frame bandings (b.id :: seen) (warnings ++ new) := by
              constructor
              · intro id' hid' b' hb'
                rcases List.mem_cons.mp hid' with rfl | hid'
                · rw [hown, hbid] at hb'
                  cases hb'
                  exact hpass
                · exact (hinv.passed id' hid' b' hb').mono (List.subset_append_left _ _)
              · intro w hw
                rcases List.mem_append.mp hw with hw | hw
                · exact hinv.source w hw
                · rw [(checked_of_checkBanding hnew).2] at hw
                  exact ⟨id, b, hbid, by simp [hcolumn], name_of_breach hw⟩
            obtain ⟨hsub, hsource, hpassed⟩ := ih hinv' hrest
            refine ⟨fun w hw => hsub (List.mem_append_left _ hw), hsource,
              List.forall_mem_cons.mpr ⟨?_, hpassed⟩⟩
            intro _ b' hb' _ _ _
            rw [hb] at hb'
            cases hb'
            exact hpass.mono hsub
          · obtain ⟨hsub, hsource, hpassed⟩ := ih hinv h
            refine ⟨hsub, hsource, List.forall_mem_cons.mpr ⟨?_, hpassed⟩⟩
            intro _ b' hb' column' hcolumn' hin'
            rw [hb] at hb'
            cases hb'
            rw [hcolumn] at hcolumn'
            cases hcolumn'
            exact absurd hin' hin

theorem applyTo_eq_ok {belongs : StoredBanding F → Bool} {l : List (Applied F ρ)}
    (h : applyTo frame bandings f belongs cell = .ok l) (hp : p ∈ l) :
    f.banding_id.bind bandings = some p.1 ∧ belongs p.1 = true ∧ p.2 = cell := by
  simp only [applyTo, bind_eq_ok, require_eq_ok, ensure_eq_ok, mapError_eq_ok, pure_eq_ok] at h
  obtain ⟨b, hb, _, hbelongs, out, -, rfl⟩ := h
  obtain rfl := List.mem_singleton.mp hp
  exact ⟨hb, hbelongs, rfl⟩

/-- An applied banding is of the map, and it is that of a banding factor over its column, or it is
over no column. -/
theorem appliedOf_spec {l : List (Applied F ρ)} (h : appliedOf reading frame bandings f = .ok l)
    (hp : p ∈ l) : f.banding_id.bind bandings = some p.1 ∧ (p.1.column = none ∨
      (f.type = .banding ∧ p.1.column = some f.source ∧ f.source ∈ frame.columns ∧
        p.2 = reading.cell f.source)) := by
  rw [appliedOf, ensure_bind_eq_ok] at h
  obtain ⟨-, h⟩ := h
  cases htype : f.type with
  | interaction | identity =>
    simp only [htype, pure_eq_ok] at h
    subst h
    cases hp
  | spline | polynomial | offset => simp [htype] at h
  | grouping =>
    simp only [htype, ensure_bind_eq_ok, pure_eq_ok] at h
    obtain ⟨-, rfl⟩ := h
    cases hp
  | banding =>
    simp only [htype, ensure_bind_eq_ok] at h
    obtain ⟨hin, h⟩ := h
    obtain ⟨hb, hbelongs, hcell⟩ := applyTo_eq_ok h hp
    exact ⟨hb, .inr ⟨rfl, by simpa using hbelongs, hin, hcell⟩⟩
  | expression =>
    simp only [htype, bind_eq_ok, ensure_eq_ok] at h
    obtain ⟨⟨numeric, cell⟩, -, _, -, h⟩ := h
    simp only at h
    split_ifs at h with hnumeric
    · obtain ⟨hb, hbelongs, -⟩ := applyTo_eq_ok h hp
      refine ⟨hb, .inl ?_⟩
      have hone := p.1.overOne
      cases htext : p.1.sourceExpression with
      | none => simp [htext] at hbelongs
      | some text =>
        rw [htext] at hone
        simpa using hone
    · obtain rfl := pure_eq_ok.mp h
      cases hp

/-- A fit whose check passes has every banding checked exactly where those cut over a formula have
no empty band and no thin one. -/
theorem fitBandings_checked_iff (reading : Reading F ρ) (frame : Frame ρ) (bandings : BandingMap F)
    (factors : List Factor) (warnings : List Warning) (applied : List (Applied F ρ))
    (hmap : WellFormed bandings)
    (hcheck : checkFitBandings reading frame bandings factors = .ok warnings)
    (happlied : appliedBandings reading frame bandings factors = .ok applied) :
    (∀ p ∈ applied, Checked reading frame warnings p) ↔
      ∀ p ∈ applied, p.1.column = none →
        NoEmptyBand reading frame p ∧ breaches reading frame p = [] := by
  obtain ⟨-, hsource, hpassed⟩ := checkFitFrom_spec hmap
    ⟨by rintro id ⟨⟩, by rintro w ⟨⟩⟩ hcheck
  have hspec : ∀ p ∈ applied, ∃ f ∈ factors, f.banding_id.bind bandings = some p.1 ∧
      (p.1.column = none ∨ (f.type = .banding ∧ p.1.column = some f.source ∧
        f.source ∈ frame.columns ∧ p.2 = reading.cell f.source)) := by
    intro p hp
    obtain ⟨parts, hparts, rfl⟩ := map_eq_ok.mp happlied
    obtain ⟨l, hl, hpl⟩ := List.mem_flatten.mp hp
    obtain ⟨f, hf, hof⟩ := exists_of_forall₂ (List.Forall₂.flip (mapM_eq_ok.mp hparts)) hl
    exact ⟨f, hf, appliedOf_spec hof hpl⟩
  constructor
  · intro hall p hp hcolumn
    refine ⟨(hall p hp).1, List.eq_nil_iff_forall_not_mem.mpr fun w hw => ?_⟩
    obtain ⟨id, b, hb, hsome, hslug, hversion⟩ := hsource w ((hall p hp).2 hw)
    obtain ⟨hslug', hversion'⟩ := name_of_breach hw
    obtain ⟨f, -, hbind, -⟩ := hspec p hp
    obtain ⟨id', -, hb'⟩ := Option.bind_eq_some_iff.mp hbind
    obtain rfl := hmap.named id id' b p.1 hb hb' (hslug.symm.trans hslug')
      (hversion.symm.trans hversion')
    rw [hcolumn] at hsome
    cases hsome
  · intro hall p hp
    obtain ⟨f, hf, hbind, hnone | ⟨htype, hcolumn, hin, hcell⟩⟩ := hspec p hp
    · obtain ⟨hempty, hbreaches⟩ := hall p hp hnone
      exact ⟨hempty, by rw [hbreaches]; exact List.nil_subset _⟩
    · obtain ⟨column, hcolumn', found, hfound, hsub⟩ := hpassed f hf htype p.1 hbind _ hcolumn hin
      obtain rfl := Option.some.inj (hcolumn.symm.trans hcolumn')
      rw [← hcell] at hfound
      obtain ⟨hempty, rfl⟩ := checked_of_checkBanding hfound
      exact ⟨hempty, hsub⟩

end Spec

/-! ## A banding of a formula -/

/-- Two bands of the result of a formula, with a floor of one year. -/
def scoreBanding : StoredBanding ℚ where
  boundaries := [0, 10, 20]
  closed := .left
  labels := ["0-9", "10+"]
  nullLevel := none
  belowRange := .error
  aboveRange := .error
  two := by decide
  increase := by decide
  oneLabelEach := rfl
  distinct := by decide
  nullApart := by rintro level ⟨⟩
  id := 7
  slug := "score"
  version := 1
  column := none
  sourceExpression := some "age * load"
  minExposure := 1
  minClaims := 0
  failsOnThin := false
  overOne := by decide

def scoreFactor : Factor :=
  { id := 1, slug := "score", type := .expression, source_columns := ["age", "load"],
    banding_id := some 7, expression := some "age * load", slug_ok := by decide }

def scoreMap : BandingMap ℚ := fun id => if id = 7 then some scoreBanding else none

theorem scoreMap_wellFormed : WellFormed scoreMap := by
  have heq : ∀ id b, scoreMap id = some b → id = 7 ∧ scoreBanding = b := by
    intro id b h
    rw [scoreMap, Option.ite_none_right_eq_some] at h
    exact ⟨h.1, Option.some.inj h.2⟩
  constructor
  · intro id b h
    obtain ⟨rfl, rfl⟩ := heq id b h
    rfl
  · intro id id' b b' h h' _ _
    rw [← (heq id b h).2, ← (heq id' b' h').2]

/-- Rows that are the results of the formula, of one year each. -/
def resultReading : Reading ℚ ℚ where
  cell _ _ := none
  finite _ := true
  exposureYears rows := rows.length
  claimCount _ := 0
  formula _ _ := some (true, fun x => some (some x))
  resolvesGrouping _ _ := true
  sameExpression f text := f.expression = some text

def results (rows : List ℚ) : Frame ℚ := ⟨rows, ["age", "load", "exposure_years"]⟩

def onResults : Applied ℚ ℚ := (scoreBanding, fun x => some (some x))

/-- Where a result is in each band, both bands are checked. -/
theorem bothBands_checked : Checked resultReading (results [5, 15]) [] onResults := by
  have happlied : appliedBandings resultReading (results [5, 15]) scoreMap [scoreFactor] =
      .ok [onResults] := by rfl
  apply (fitBandings_checked_iff resultReading (results [5, 15]) scoreMap [scoreFactor] []
    [onResults] scoreMap_wellFormed rfl happlied).mpr
  · intro p hp _
    obtain rfl := List.mem_singleton.mp hp
    refine ⟨?_, by decide⟩
    intro label hlabel
    simp only [Banding.labelled_iff]
    revert label
    decide
  · exact List.mem_singleton_self _

/-- The check passes, and the resolution applies a banding of which no row reaches the second
band. -/
theorem emptyBand_unchecked :
    checkFitBandings resultReading (results [5]) scoreMap [scoreFactor] = .ok [] ∧
      appliedBandings resultReading (results [5]) scoreMap [scoreFactor] = .ok [onResults] ∧
      ¬ NoEmptyBand resultReading (results [5]) onResults := by
  refine ⟨rfl, by rfl, ?_⟩
  intro h
  obtain ⟨row, hrow, hlabel⟩ := h "10+" (by decide)
  rw [Banding.labelled_iff] at hlabel
  have hfive : row = 5 := List.mem_singleton.mp (List.mem_of_mem_filter hrow)
  subst hfive
  revert hlabel
  decide

end GiPricing.Bandings
