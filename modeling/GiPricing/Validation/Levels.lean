import GiPricing.Relational.Joins
import Mathlib

/-! # Levels that appear and vanish

A column's levels are compared with those of a reference version, which is read from its profile or
from its frame. A frame is read through its twenty most frequent groups, and a profile lists no more.
-/

namespace GiPricing.Validation

open Relational

/-- The values of a column as texts, each with its own. -/
structure LevelText (L : Type) where
  str : L → String
  injective : Function.Injective str

abbrev Column (L : Type) := List (Option L × ℚ)

variable {L : Type} [LinearOrder L]

/-! ## The cut -/

/-- `TOP_LEVELS` -/
def maxLevels : ℕ := 20

def NullsLast : Option L → Option L → Prop
  | _, none => True
  | none, some _ => False
  | some a, some b => a ≤ b

instance : DecidableRel (NullsLast : Option L → Option L → Prop) := fun x y => by
  cases x <;> cases y <;> unfold NullsLast <;> infer_instance

def NullsFirst : Option L → Option L → Prop
  | none, _ => True
  | some _, none => False
  | some a, some b => a ≤ b

instance : DecidableRel (NullsFirst : Option L → Option L → Prop) := fun x y => by
  cases x <;> cases y <;> unfold NullsFirst <;> infer_instance

/-- The order of the groups: the larger first, then by level with the null last. -/
def FrequentFirst (g h : Option L × ℕ) : Prop := h.2 < g.2 ∨ h.2 = g.2 ∧ NullsLast g.1 h.1

instance : DecidableRel (FrequentFirst : Option L × ℕ → Option L × ℕ → Prop) := fun _ _ =>
  inferInstanceAs (Decidable (_ ∨ _))

def topGroups (rows : Column L) : List (Option L × ℕ) :=
  ((groupLengths Prod.fst rows).insertionSort FrequentFirst).take maxLevels

def exposureOf (rows : Column L) (level : Option L) : ℚ :=
  ((rows.filter fun r => r.1 = level).map Prod.snd).sum

variable (t : LevelText L)

/-- `_level_counts` -/
def levelCounts (rows : Column L) : List (String × ℕ) :=
  (topGroups rows).filterMap fun g => g.1.map fun l => (t.str l, g.2)

/-! ## The profile -/

structure LevelCount where
  level : Option String
  count : ℕ
  exposure_years : Option ℚ
  deriving DecidableEq

structure OneWayRow where
  level : String
  exposure_years : ℚ
  deriving DecidableEq

/-- What the checks read of a profile: the top levels of each column, and the summaries. -/
structure Profile where
  columns : List (String × List LevelCount)
  one_ways : List (String × List OneWayRow)

/-- A version of a column: its rows, whether its type has levels to list, whether an exposure column
stands beside it, and whether it is summarised. -/
structure Version (L : Type) where
  rows : Column L
  detailed : Bool
  weighted : Bool
  summarised : Bool

namespace Version

variable (v : Version L) (stored : ℚ → ℚ)

def topLevels : List LevelCount :=
  if v.detailed then (topGroups v.rows).map fun g =>
    ⟨g.1.map t.str, g.2, if v.weighted then some (stored (exposureOf v.rows g.1)) else none⟩
  else []

/-- `one_way`: the null level is the text of a null. -/
def oneWay : List OneWayRow :=
  ((groupLengths Prod.fst v.rows).insertionSort fun g h => NullsFirst g.1 h.1).map fun g =>
    ⟨g.1.elim "None" t.str, stored (if v.weighted then exposureOf v.rows g.1 else 0)⟩

/-- `profile_frame`, at one column. -/
def profile (column : String) : Profile :=
  ⟨[(column, v.topLevels t stored)], if v.summarised then [(column, v.oneWay t stored)] else []⟩

end Version

/-! ## The checks -/

/-- The levels that a check reports. Their number is the count of violating rows, and the first
hundred are the offending sample. -/
structure LevelOutcome where
  levels : List String := []
  skip_reason : Option String := none
  deriving DecidableEq

def notPresent (column : String) : LevelOutcome :=
  { skip_reason := some (column ++ " is not present") }

def noReference : LevelOutcome := { skip_reason := some "no reference version to compare against" }

def sorted (levels : List String) : List String := levels.insertionSort (· ≤ ·)

variable (column : String) (profile : Option Profile) (reference : Option (Column L))

/-- `_reference_column` -/
def referenceColumn : Option (List LevelCount) := profile.bind fun p => p.columns.lookup column

/-- The levels of the reference that `_new_level` knows. -/
def knownLevels : Option (List String) :=
  match referenceColumn column profile with
  | some (top :: rest) => some ((top :: rest).filterMap LevelCount.level)
  | _ => reference.map fun rows => (levelCounts t rows).map Prod.fst

/-- `_new_level` -/
def newLevel (current : Option (Column L)) : LevelOutcome :=
  match current with
  | none => notPresent column
  | some rows => match knownLevels t column profile reference with
    | none => noReference
    | some known => { levels := sorted (((levelCounts t rows).map Prod.fst).filter (· ∉ known)) }

def summaryWeights : List (String × ℚ) :=
  ((profile.bind fun p => (p.one_ways.filter fun s => s.1 = column).getLast?).elim [] Prod.snd
    |>.filter fun row => row.level ≠ "None").map fun row => (row.level, row.exposure_years)

/-- The weights of the top levels: the exposure, or the count where the profile has none. -/
def topWeights : List (String × ℚ) :=
  ((referenceColumn column profile).getD []).filterMap fun lc =>
    lc.level.map fun level => (level, lc.exposure_years.getD lc.count)

/-- The weights of the reference that `_vanished_level` reads. -/
def referenceWeights : Option (List (String × ℚ)) :=
  if summaryWeights column profile ≠ [] then some (summaryWeights column profile)
  else if topWeights column profile ≠ [] then some (topWeights column profile)
  else reference.map fun rows => (levelCounts t rows).map fun c => (c.1, (c.2 : ℚ))

def total (weights : List (String × ℚ)) : ℚ := (weights.map Prod.snd).sum

/-- `_vanished_level` -/
def vanishedLevel (minExposureShare : ℚ) (current : Option (Column L)) : LevelOutcome :=
  match current with
  | none => notPresent column
  | some rows => match referenceWeights t column profile reference with
    | none => noReference
    | some weights =>
      if total weights ≤ 0 then { skip_reason := some "the reference version has no weight" }
      else { levels := sorted ((weights.filter fun w =>
        w.1 ∉ (levelCounts t rows).map Prod.fst ∧ minExposureShare < w.2 / total weights).map
          Prod.fst) }

structure ColumnComparison where
  column : String
  new_levels : List String
  vanished_levels : List String
  deriving DecidableEq

/-- `compare_profiles`, the levels of each column that both have. -/
def compareProfiles (current reference : Profile) : List ColumnComparison :=
  current.columns.filterMap fun c => (reference.columns.lookup c.1).map fun before =>
    let now := c.2.filterMap LevelCount.level
    let earlier := before.filterMap LevelCount.level
    ⟨c.1, sorted (now.filter (· ∉ earlier)), sorted (earlier.filter (· ∉ now))⟩

/-! ## What the cut shows -/

def levels (rows : Column L) : Finset L := (rows.filterMap Prod.fst).toFinset

def shown (rows : Column L) : Finset L := ((topGroups rows).filterMap Prod.fst).toFinset

section Shown

variable {t column} {rows : Column L} {l : L} {text : String}

theorem mem_levels : l ∈ levels rows ↔ some l ∈ rows.map Prod.fst := by
  simp [levels]

theorem mem_shown : l ∈ shown rows ↔ some l ∈ (topGroups rows).map Prod.fst := by
  simp [shown]

theorem mem_topGroups {g : Option L × ℕ} (h : g ∈ topGroups rows) :
    g ∈ groupLengths Prod.fst rows :=
  (List.mem_insertionSort FrequentFirst).mp (List.mem_of_mem_take h)

theorem topGroups_keys : ((topGroups rows).map Prod.fst).Nodup := by
  have hperm := (List.perm_insertionSort FrequentFirst (groupLengths Prod.fst rows)).map Prod.fst
  have hall := hperm.nodup_iff.mpr groupLengths_keys
  exact hall.sublist ((List.take_sublist _ _).map _)

theorem shown_subset : shown rows ⊆ levels rows := by
  intro l hl
  obtain ⟨⟨k, n⟩, hg, rfl⟩ := List.mem_map.mp (mem_shown.mp hl)
  exact mem_levels.mpr (mem_groupLengths.mp (mem_topGroups hg)).1

theorem mem_levelCounts :
    text ∈ (levelCounts t rows).map Prod.fst ↔ ∃ l ∈ shown rows, t.str l = text := by
  simp only [levelCounts, List.mem_map, List.mem_filterMap, mem_shown]
  constructor
  · rintro ⟨_, ⟨⟨k, n⟩, hg, hk⟩, rfl⟩
    obtain ⟨l, rfl, rfl⟩ := Option.map_eq_some_iff.mp hk
    exact ⟨l, ⟨_, hg, rfl⟩, rfl⟩
  · rintro ⟨l, ⟨⟨k, n⟩, hg, rfl⟩, rfl⟩
    exact ⟨_, ⟨_, hg, rfl⟩, rfl⟩

omit [LinearOrder L] in
theorem str_mem_image {s : Finset L} : (∃ l' ∈ s, t.str l' = t.str l) ↔ l ∈ s := by
  constructor
  · rintro ⟨l', hl', h⟩
    rwa [← t.injective h]
  · exact fun h => ⟨l, h, rfl⟩

theorem mem_sorted {texts : List String} : text ∈ sorted texts ↔ text ∈ texts :=
  List.mem_insertionSort _

theorem mem_topLevels {v : Version L} {stored : ℚ → ℚ} :
    text ∈ (v.topLevels t stored).filterMap LevelCount.level ↔
      v.detailed = true ∧ ∃ l ∈ shown v.rows, t.str l = text := by
  unfold Version.topLevels
  by_cases h : v.detailed = true
  · rw [if_pos h, and_iff_right h]
    simp only [List.filterMap_map, List.mem_filterMap, Function.comp_apply, mem_shown,
      List.mem_map, Option.map_eq_some_iff]
    constructor
    · rintro ⟨⟨k, n⟩, hg, l, rfl, rfl⟩
      exact ⟨l, ⟨_, hg, rfl⟩, rfl⟩
    · rintro ⟨l, ⟨⟨k, n⟩, hg, rfl⟩, rfl⟩
      exact ⟨_, hg, l, rfl, rfl⟩
  · rw [if_neg h, List.filterMap_nil]
    simp [h]

end Shown

/-! ## What is read of a reference -/

/-- Where the weights of a reference are read: the summary of its profile, the top levels of its
profile, or its frame. -/
inductive Reading | summary | top | frame | nothing
  deriving DecidableEq

section Reading

variable (stored : ℚ → ℚ) (b : Version L) (byProfile byFrame : Bool)

def given : Option Profile := if byProfile then some (b.profile t stored column) else none

def givenFrame : Option (Column L) := if byFrame then some b.rows else none

/-- The first source that has a level to weigh. A summary has none but the text of a null. -/
def reading : Reading :=
  if byProfile = true ∧ b.summarised = true ∧ ∃ l ∈ levels b.rows, t.str l ≠ "None" then .summary
  else if byProfile = true ∧ b.detailed = true ∧ (shown b.rows).Nonempty then .top
  else if byFrame = true then .frame
  else .nothing

/-- The levels of a reference that are weighed. -/
def Reading.levels : Reading → Finset L
  | summary => (Validation.levels b.rows).filter fun l => t.str l ≠ "None"
  | top => shown b.rows
  | frame => shown b.rows
  | nothing => ∅

/-- The weight of a level: its exposure as the profile stores it, or its count. -/
def Reading.weight : Reading → L → ℚ
  | summary, l => stored (if b.weighted then exposureOf b.rows (some l) else 0)
  | top, l => if b.weighted then stored (exposureOf b.rows (some l)) else
      b.rows.countP fun r => r.1 = some l
  | frame, l => b.rows.countP fun r => r.1 = some l
  | nothing, _ => 0

/-- A reference that `_new_level` reads levels of. -/
def Readable : Prop := (byProfile = true ∧ b.detailed = true ∧ b.rows ≠ []) ∨ byFrame = true

/-- A level whose share of the weight of some levels exceeds the limit. -/
def Material (minExposureShare : ℚ) (weight : L → ℚ) (among : Finset L) (l : L) : Prop :=
  l ∈ among ∧ 0 < ∑ k ∈ among, weight k ∧ minExposureShare < weight l / ∑ k ∈ among, weight k

end Reading

section Read

variable {t column} {stored : ℚ → ℚ} {b : Version L} {byProfile byFrame : Bool}

theorem topGroups_eq_nil {rows : Column L} : topGroups rows = [] ↔ rows = [] := by
  rw [← List.length_eq_zero_iff, topGroups, List.length_take, List.length_insertionSort,
    groupLengths, List.length_map]
  constructor
  · intro h
    have hnil : ((rows.map Prod.fst).dedup).length = 0 := by unfold maxLevels at h; omega
    rwa [List.length_eq_zero_iff, List.dedup_eq_nil, List.map_eq_nil_iff] at hnil
  · rintro rfl
    rfl

theorem referenceColumn_given : referenceColumn column (given t column stored b byProfile) =
    if byProfile = true then some (b.topLevels t stored) else none := by
  unfold referenceColumn given Version.profile
  cases byProfile
  · rfl
  · simp

theorem topLevels_eq_nil : b.topLevels t stored = [] ↔ ¬ (b.detailed = true ∧ b.rows ≠ []) := by
  unfold Version.topLevels
  by_cases h : b.detailed = true
  · rw [if_pos h, List.map_eq_nil_iff, topGroups_eq_nil]
    simp [h]
  · simp [h]

variable (t column stored b byProfile byFrame) in
/-- The levels that `_new_level` knows are those of the cut of the reference. -/
theorem knownLevels_cases :
    (Readable b byProfile byFrame ∧ ∃ known, knownLevels t column (given t column stored b byProfile)
      (givenFrame b byFrame) = some known ∧ ∀ l, t.str l ∈ known ↔ l ∈ shown b.rows) ∨
    (¬ Readable b byProfile byFrame ∧ knownLevels t column (given t column stored b byProfile)
      (givenFrame b byFrame) = none) := by
  unfold knownLevels
  rw [referenceColumn_given]
  by_cases hp : byProfile = true ∧ b.detailed = true ∧ b.rows ≠ []
  · have hne : b.topLevels t stored ≠ [] := fun h => topLevels_eq_nil.mp h hp.2
    obtain ⟨top, rest, hlist⟩ := List.exists_cons_of_ne_nil hne
    left
    refine ⟨Or.inl hp, _, by rw [if_pos hp.1, hlist], fun l => ?_⟩
    rw [← hlist, mem_topLevels, and_iff_right hp.2.1]
    exact str_mem_image
  · have hnone : (match (if byProfile = true then some (b.topLevels t stored) else none) with
        | some (top :: rest) => some ((top :: rest).filterMap LevelCount.level)
        | _ => (givenFrame b byFrame).map fun rows => (levelCounts t rows).map Prod.fst) =
        (givenFrame b byFrame).map fun rows => (levelCounts t rows).map Prod.fst := by
      by_cases hb : byProfile = true
      · rw [if_pos hb, (topLevels_eq_nil (t := t)).mpr fun h => hp ⟨hb, h⟩]
      · rw [if_neg hb]
    rw [hnone]
    unfold givenFrame Readable
    cases byFrame
    · right
      exact ⟨by simpa using hp, rfl⟩
    · left
      refine ⟨Or.inr rfl, _, rfl, fun l => ?_⟩
      rw [mem_levelCounts]
      exact str_mem_image

/-! ### Weights by level -/

/-- The weights of some levels, each once. -/
def Weighs (ws : List (String × ℚ)) (among : Finset L) (weight : L → ℚ) : Prop :=
  ∃ ls : List L, ls.Nodup ∧ ls.toFinset = among ∧ ws = ls.map fun l => (t.str l, weight l)

variable {ws : List (String × ℚ)} {among : Finset L} {weight : L → ℚ}

theorem Weighs.total (h : Weighs (t := t) ws among weight) : total ws = ∑ l ∈ among, weight l := by
  obtain ⟨ls, hnodup, rfl, rfl⟩ := h
  rw [List.sum_toFinset _ hnodup, Validation.total, List.map_map]
  rfl

theorem Weighs.mem (h : Weighs (t := t) ws among weight) {p : String × ℚ} :
    p ∈ ws ↔ ∃ l ∈ among, (t.str l, weight l) = p := by
  obtain ⟨ls, hnodup, rfl, rfl⟩ := h
  simp only [List.mem_map, List.mem_toFinset]

theorem Weighs.eq_nil (h : Weighs (t := t) ws among weight) : ws = [] ↔ among = ∅ := by
  obtain ⟨ls, hnodup, rfl, rfl⟩ := h
  rw [List.map_eq_nil_iff, List.toFinset_eq_empty_iff]

/-- The rows of groups of distinct keys weigh their levels. -/
theorem weighs_groups {gs : List (Option L × ℕ)} (hnodup : (gs.map Prod.fst).Nodup)
    {p : L → Prop} [DecidablePred p] {row : Option L × ℕ → Option (String × ℚ)}
    (hnone : ∀ n, (none, n) ∈ gs → row (none, n) = none)
    (hsome : ∀ l n, (some l, n) ∈ gs →
      row (some l, n) = if p l then some (t.str l, weight l) else none) :
    Weighs (t := t) (gs.filterMap row) ((gs.filterMap Prod.fst).toFinset.filter p) weight := by
  refine ⟨(gs.filterMap Prod.fst).filter p, ?_, ?_, ?_⟩
  · apply List.Nodup.filter
    have hmap : gs.filterMap Prod.fst = (gs.map Prod.fst).filterMap id := by
      rw [List.filterMap_map]
      rfl
    rw [hmap]
    apply List.Nodup.filterMap _ hnodup
    rintro k k' l hk hk'
    exact hk.trans hk'.symm
  · ext l
    simp
  · clear hnodup
    induction gs with
    | nil => rfl
    | cons g gs ih =>
      have hrest := ih (fun n h => hnone n (List.mem_cons_of_mem _ h))
        fun l n h => hsome l n (List.mem_cons_of_mem _ h)
      rcases g with ⟨_ | l, n⟩
      · rw [List.filterMap_cons_none (hnone n List.mem_cons_self), List.filterMap_cons_none rfl]
        exact hrest
      · rw [List.filterMap_cons, List.filterMap_cons, hsome l n List.mem_cons_self]
        by_cases hl : p l
        · simpa [hl] using hrest
        · simpa [hl] using hrest

theorem toFinset_groups {rows : Column L} {r : Option L × ℕ → Option L × ℕ → Prop}
    [DecidableRel r] :
    (((groupLengths Prod.fst rows).insertionSort r).filterMap Prod.fst).toFinset = levels rows := by
  ext l
  rw [mem_levels, List.mem_toFinset, List.mem_filterMap]
  constructor
  · rintro ⟨⟨k, n⟩, hg, rfl⟩
    exact (mem_groupLengths.mp ((List.mem_insertionSort r).mp hg)).1
  · intro hl
    exact ⟨(some l, _), (List.mem_insertionSort r).mpr (mem_groupLengths.mpr ⟨hl, rfl⟩), rfl⟩

theorem weighs_oneWay : Weighs (t := t)
    (((b.oneWay t stored).filter fun row => row.level ≠ "None").map fun row =>
      (row.level, row.exposure_years))
    (Reading.summary.levels t b) (Reading.summary.weight stored b) := by
  have hnodup : (((groupLengths Prod.fst b.rows).insertionSort
      fun g h => NullsFirst g.1 h.1).map Prod.fst).Nodup :=
    ((List.perm_insertionSort _ _).map Prod.fst).nodup_iff.mpr groupLengths_keys
  unfold Version.oneWay Reading.levels
  rw [← List.filterMap_eq_filter, List.map_filterMap, List.filterMap_map,
    ← toFinset_groups (r := fun g h => NullsFirst g.1 h.1)]
  apply weighs_groups hnodup
  · intro n _
    rfl
  · intro l n _
    by_cases hl : t.str l = "None"
    · simp [Option.guard, hl]
    · simp [Option.guard, hl, Reading.weight]

theorem weighs_topLevels (h : b.detailed = true) : Weighs (t := t)
    ((b.topLevels t stored).filterMap fun lc =>
      lc.level.map fun level => (level, lc.exposure_years.getD lc.count))
    (Reading.top.levels t b) (Reading.top.weight stored b) := by
  unfold Version.topLevels Reading.levels
  rw [if_pos h, List.filterMap_map, ← Finset.filter_true (shown b.rows)]
  apply weighs_groups topGroups_keys
  · intro n _
    rfl
  · intro l n hg
    have hn := (mem_groupLengths.mp (mem_topGroups hg)).2
    by_cases hw : b.weighted = true
    · simp [Reading.weight, hw]
    · simp [Reading.weight, hw, ← hn]

theorem weighs_levelCounts : Weighs (t := t)
    ((levelCounts t b.rows).map fun c => (c.1, (c.2 : ℚ)))
    (Reading.frame.levels t b) (Reading.frame.weight stored b) := by
  unfold levelCounts Reading.levels
  rw [List.map_filterMap, ← Finset.filter_true (shown b.rows)]
  apply weighs_groups topGroups_keys
  · intro n _
    rfl
  · intro l n hg
    have hn := (mem_groupLengths.mp (mem_topGroups hg)).2
    simp [Reading.weight, ← hn]

theorem weighs_summary (h : byProfile = true ∧ b.summarised = true) : Weighs (t := t)
    (summaryWeights column (given t column stored b byProfile))
    (Reading.summary.levels t b) (Reading.summary.weight stored b) := by
  have hweights : Weighs (t := t)
      (((b.oneWay t stored).filter fun row => row.level ≠ "None").map fun row =>
        (row.level, row.exposure_years))
      (Reading.summary.levels t b) (Reading.summary.weight stored b) := weighs_oneWay
  unfold summaryWeights given Version.profile
  simpa [h.1, h.2] using hweights

theorem summaryWeights_eq_nil (h : ¬ (byProfile = true ∧ b.summarised = true)) :
    summaryWeights column (given t column stored b byProfile) = [] := by
  unfold summaryWeights given Version.profile
  cases byProfile
  · rfl
  · have hs : b.summarised = false := by simpa using h
    simp [hs]

theorem topWeights_eq_nil (h : ¬ (byProfile = true ∧ b.detailed = true)) :
    topWeights column (given t column stored b byProfile) = [] := by
  unfold topWeights
  rw [referenceColumn_given]
  cases byProfile
  · rfl
  · have hd : b.detailed = false := by simpa using h
    simp [Version.topLevels, hd]

variable (t column stored b byProfile byFrame) in
/-- The weights that `_vanished_level` reads are those of the first source with a level to weigh. -/
theorem referenceWeights_cases :
    (∃ ws, referenceWeights t column (given t column stored b byProfile) (givenFrame b byFrame) =
      some ws ∧ Weighs (t := t) ws ((reading t b byProfile byFrame).levels t b)
        ((reading t b byProfile byFrame).weight stored b)) ∨
    (reading t b byProfile byFrame = .nothing ∧ referenceWeights t column
      (given t column stored b byProfile) (givenFrame b byFrame) = none) := by
  have hsummary : summaryWeights column (given t column stored b byProfile) ≠ [] ↔
      byProfile = true ∧ b.summarised = true ∧ ∃ l ∈ levels b.rows, t.str l ≠ "None" := by
    by_cases h : byProfile = true ∧ b.summarised = true
    · rw [Ne, (weighs_summary h).eq_nil, ← and_assoc, and_iff_right h]
      simp [Reading.levels, Finset.filter_eq_empty_iff]
    · simp [summaryWeights_eq_nil h, ← and_assoc, h]
  have htop : topWeights column (given t column stored b byProfile) ≠ [] ↔
      byProfile = true ∧ b.detailed = true ∧ (shown b.rows).Nonempty := by
    by_cases h : byProfile = true ∧ b.detailed = true
    · unfold topWeights
      rw [referenceColumn_given, if_pos h.1, Option.getD_some, Ne, (weighs_topLevels h.2).eq_nil,
        ← and_assoc, and_iff_right h, Finset.nonempty_iff_ne_empty]
      rfl
    · simp [topWeights_eq_nil h, ← and_assoc, h]
  unfold referenceWeights reading
  simp only [hsummary, htop]
  split_ifs with h₁ h₂ h₃
  · exact Or.inl ⟨_, rfl, weighs_summary ⟨h₁.1, h₁.2.1⟩⟩
  · left
    refine ⟨_, rfl, ?_⟩
    unfold topWeights
    rw [referenceColumn_given, if_pos h₂.1, Option.getD_some]
    exact weighs_topLevels h₂.2.1
  · left
    unfold givenFrame
    rw [if_pos h₃]
    exact ⟨_, rfl, weighs_levelCounts⟩
  · right
    unfold givenFrame
    rw [if_neg h₃]
    exact ⟨rfl, rfl⟩

/-! ## What the checks report -/

variable {minExposureShare : ℚ} {a : Version L} {text : String}

theorem mem_newLevel : text ∈ (newLevel t column (given t column stored b byProfile)
      (givenFrame b byFrame) (some a.rows)).levels ↔
    Readable b byProfile byFrame ∧ ∃ l ∈ shown a.rows, l ∉ shown b.rows ∧ t.str l = text := by
  unfold newLevel
  rcases knownLevels_cases t column stored b byProfile byFrame with
    ⟨hread, known, hknown, hmem⟩ | ⟨hread, hknown⟩
  · simp only [hknown, mem_sorted, List.mem_filter, mem_levelCounts, decide_eq_true_eq,
      and_iff_right hread]
    constructor
    · rintro ⟨⟨l, hl, rfl⟩, hnew⟩
      exact ⟨l, hl, fun hb => hnew ((hmem l).mpr hb), rfl⟩
    · rintro ⟨l, hl, hb, rfl⟩
      exact ⟨⟨l, hl, rfl⟩, fun hk => hb ((hmem l).mp hk)⟩
  · simp [hknown, hread, noReference]

theorem mem_vanishedLevel : text ∈ (vanishedLevel t column (given t column stored b byProfile)
      (givenFrame b byFrame) minExposureShare (some a.rows)).levels ↔
    ∃ l, Material minExposureShare ((reading t b byProfile byFrame).weight stored b)
      ((reading t b byProfile byFrame).levels t b) l ∧ l ∉ shown a.rows ∧ t.str l = text := by
  unfold vanishedLevel
  rcases referenceWeights_cases t column stored b byProfile byFrame with
    ⟨ws, hws, hweighs⟩ | ⟨hnothing, hws⟩
  · simp only [hws]
    split_ifs with htotal
    · rw [hweighs.total] at htotal
      simp [Material, not_lt.mpr htotal]
    · rw [hweighs.total] at htotal
      simp only [mem_levelCounts]
      simp only [mem_sorted, List.mem_map, List.mem_filter, hweighs.mem, hweighs.total,
        decide_eq_true_eq]
      constructor
      · rintro ⟨_, ⟨⟨l, hl, rfl⟩, habsent, hshare⟩, rfl⟩
        exact ⟨l, ⟨hl, not_le.mp htotal, hshare⟩, fun h => habsent ⟨l, h, rfl⟩, rfl⟩
      · rintro ⟨l, ⟨hl, _, hshare⟩, habsent, rfl⟩
        exact ⟨_, ⟨⟨l, hl, rfl⟩, fun h => habsent (str_mem_image.mp h), hshare⟩, rfl⟩
  · simp [hws, hnothing, noReference, Material, Reading.levels]

theorem compareProfiles_profile :
    compareProfiles (a.profile t stored column) (b.profile t stored column) =
    [⟨column, sorted (((a.topLevels t stored).filterMap LevelCount.level).filter
        (· ∉ (b.topLevels t stored).filterMap LevelCount.level)),
      sorted (((b.topLevels t stored).filterMap LevelCount.level).filter
        (· ∉ (a.topLevels t stored).filterMap LevelCount.level))⟩] := by
  simp [compareProfiles, Version.profile]

end Read

/-! ## Seeing every level -/

section Sees

variable (stored : ℚ → ℚ) (minExposureShare : ℚ) (a b : Version L) (byProfile byFrame : Bool)

/-- The checks and the comparison of two versions report the levels that appear and vanish, and a
version compared with its own profile has none. -/
structure SeesEveryLevel : Prop where
  new : ∀ text, text ∈ (newLevel t column (given t column stored b byProfile)
      (givenFrame b byFrame) (some a.rows)).levels ↔
    ∃ l ∈ levels a.rows, l ∉ levels b.rows ∧ t.str l = text
  vanished : ∀ text, text ∈ (vanishedLevel t column (given t column stored b byProfile)
      (givenFrame b byFrame) minExposureShare (some a.rows)).levels ↔
    ∃ l, Material minExposureShare ((reading t b byProfile byFrame).weight stored b)
      (levels b.rows) l ∧ l ∉ levels a.rows ∧ t.str l = text
  own_new : (newLevel t column (some (a.profile t stored column)) none (some a.rows)).levels = []
  own_vanished : (vanishedLevel t column (some (a.profile t stored column)) none minExposureShare
    (some a.rows)).levels = []
  exchanged : (compareProfiles (a.profile t stored column) (b.profile t stored column)).map
      ColumnComparison.new_levels =
    (compareProfiles (b.profile t stored column) (a.profile t stored column)).map
      ColumnComparison.vanished_levels
  absent : ∀ c ∈ compareProfiles (a.profile t stored column) (b.profile t stored column),
    ∀ text ∈ c.new_levels, ∃ l, l ∉ levels b.rows ∧ t.str l = text

/-- What the cut at the most frequent groups must keep. -/
structure Uncut : Prop where
  /-- A new level is among the most frequent, and there is a reference to read. -/
  new : ∀ l ∈ levels a.rows, l ∉ levels b.rows → l ∈ shown a.rows ∧ Readable b byProfile byFrame
  /-- A frequent level that the reference has is among the most frequent there. -/
  known : Readable b byProfile byFrame → ∀ l ∈ shown a.rows, l ∈ levels b.rows → l ∈ shown b.rows
  /-- A material level that vanished is material among the levels weighed. -/
  read : ∀ l, Material minExposureShare ((reading t b byProfile byFrame).weight stored b)
      (levels b.rows) l → l ∉ levels a.rows →
    Material minExposureShare ((reading t b byProfile byFrame).weight stored b)
      ((reading t b byProfile byFrame).levels t b) l
  /-- A level that is material among those weighed is among the most frequent of the frame, or it
  vanished and is material. -/
  material : ∀ l, Material minExposureShare ((reading t b byProfile byFrame).weight stored b)
      ((reading t b byProfile byFrame).levels t b) l →
    l ∈ shown a.rows ∨ l ∉ levels a.rows ∧
      Material minExposureShare ((reading t b byProfile byFrame).weight stored b)
        (levels b.rows) l
  /-- A level that is material in the frame's own profile is among its most frequent. -/
  own : ∀ l, Material minExposureShare ((reading t a true false).weight stored a)
    ((reading t a true false).levels t a) l → l ∈ shown a.rows
  /-- A level that one profile lists and the other version has is listed by both. -/
  listed : a.detailed = true → ∀ l ∈ shown a.rows, l ∈ levels b.rows →
    b.detailed = true ∧ l ∈ shown b.rows

variable {t column stored minExposureShare a b byProfile byFrame}

/-! ### Each side of the comparison -/

theorem own_new : (newLevel t column (given t column stored a true) (givenFrame a false)
    (some a.rows)).levels = [] := by
  apply List.eq_nil_iff_forall_not_mem.mpr
  intro text h
  obtain ⟨_, l, hl, hnot, _⟩ := mem_newLevel.mp h
  exact hnot hl

theorem own_vanished_iff : (vanishedLevel t column (given t column stored a true)
      (givenFrame a false) minExposureShare (some a.rows)).levels = [] ↔
    ∀ l, Material minExposureShare ((reading t a true false).weight stored a)
      ((reading t a true false).levels t a) l → l ∈ shown a.rows := by
  rw [List.eq_nil_iff_forall_not_mem]
  constructor
  · intro h l hl
    by_contra hnot
    exact h _ (mem_vanishedLevel.mpr ⟨l, hl, hnot, rfl⟩)
  · intro h text hmem
    obtain ⟨l, hl, hnot, _⟩ := mem_vanishedLevel.mp hmem
    exact hnot (h l hl)

theorem new_iff : (∀ text, text ∈ (newLevel t column (given t column stored b byProfile)
      (givenFrame b byFrame) (some a.rows)).levels ↔
        ∃ l ∈ levels a.rows, l ∉ levels b.rows ∧ t.str l = text) ↔
    (∀ l ∈ levels a.rows, l ∉ levels b.rows → l ∈ shown a.rows ∧ Readable b byProfile byFrame) ∧
      (Readable b byProfile byFrame → ∀ l ∈ shown a.rows, l ∈ levels b.rows → l ∈ shown b.rows) := by
  constructor
  · intro h
    constructor
    · intro l hl hb
      obtain ⟨hread, l', hl', _, htext⟩ := mem_newLevel.mp ((h (t.str l)).mpr ⟨l, hl, hb, rfl⟩)
      exact ⟨t.injective htext ▸ hl', hread⟩
    · intro hread l hl hb
      by_contra hnot
      obtain ⟨l', _, hb', htext⟩ := (h (t.str l)).mp (mem_newLevel.mpr ⟨hread, l, hl, hnot, rfl⟩)
      exact hb' (t.injective htext ▸ hb)
  · rintro ⟨hnew, hknown⟩ text
    rw [mem_newLevel]
    constructor
    · rintro ⟨hread, l, hl, hnot, rfl⟩
      exact ⟨l, shown_subset hl, fun hb => hnot (hknown hread l hl hb), rfl⟩
    · rintro ⟨l, hl, hb, rfl⟩
      obtain ⟨hshown, hread⟩ := hnew l hl hb
      exact ⟨hread, l, hshown, fun h => hb (shown_subset h), rfl⟩

theorem vanished_iff : (∀ text, text ∈ (vanishedLevel t column (given t column stored b byProfile)
      (givenFrame b byFrame) minExposureShare (some a.rows)).levels ↔
        ∃ l, Material minExposureShare ((reading t b byProfile byFrame).weight stored b)
          (levels b.rows) l ∧ l ∉ levels a.rows ∧ t.str l = text) ↔
    (∀ l, Material minExposureShare ((reading t b byProfile byFrame).weight stored b)
        (levels b.rows) l → l ∉ levels a.rows →
      Material minExposureShare ((reading t b byProfile byFrame).weight stored b)
        ((reading t b byProfile byFrame).levels t b) l) ∧
    ∀ l, Material minExposureShare ((reading t b byProfile byFrame).weight stored b)
        ((reading t b byProfile byFrame).levels t b) l →
      l ∈ shown a.rows ∨ l ∉ levels a.rows ∧
        Material minExposureShare ((reading t b byProfile byFrame).weight stored b)
          (levels b.rows) l := by
  constructor
  · intro h
    constructor
    · intro l hl habsent
      obtain ⟨l', hl', _, htext⟩ :=
        mem_vanishedLevel.mp ((h (t.str l)).mpr ⟨l, hl, habsent, rfl⟩)
      exact t.injective htext ▸ hl'
    · intro l hl
      by_cases hshown : l ∈ shown a.rows
      · exact Or.inl hshown
      · obtain ⟨l', hl', habsent, htext⟩ :=
          (h (t.str l)).mp (mem_vanishedLevel.mpr ⟨l, hl, hshown, rfl⟩)
        obtain rfl := t.injective htext
        exact Or.inr ⟨habsent, hl'⟩
  · rintro ⟨hread, hmaterial⟩ text
    rw [mem_vanishedLevel]
    constructor
    · rintro ⟨l, hl, hnot, rfl⟩
      obtain ⟨habsent, hb⟩ := (hmaterial l hl).resolve_left hnot
      exact ⟨l, hb, habsent, rfl⟩
    · rintro ⟨l, hl, habsent, rfl⟩
      exact ⟨l, hread l hl habsent, fun h => habsent (shown_subset h), rfl⟩

theorem absent_iff : (∀ c ∈ compareProfiles (a.profile t stored column) (b.profile t stored column),
      ∀ text ∈ c.new_levels, ∃ l, l ∉ levels b.rows ∧ t.str l = text) ↔
    (a.detailed = true → ∀ l ∈ shown a.rows, l ∈ levels b.rows →
      b.detailed = true ∧ l ∈ shown b.rows) := by
  simp only [compareProfiles_profile, List.mem_singleton, forall_eq, mem_sorted, List.mem_filter,
    mem_topLevels, decide_eq_true_eq]
  constructor
  · intro h ha l hl hb
    by_contra hnot
    obtain ⟨l', hb', htext⟩ := h (t.str l) ⟨⟨ha, l, hl, rfl⟩, fun hkept =>
      hnot ⟨hkept.1, str_mem_image.mp hkept.2⟩⟩
    exact hb' (t.injective htext ▸ hb)
  · rintro h text ⟨⟨ha, l, hl, rfl⟩, hnot⟩
    refine ⟨l, fun hb => hnot ?_, rfl⟩
    obtain ⟨hd, hshown⟩ := h ha l hl hb
    exact ⟨hd, l, hshown, rfl⟩

/-- The checks and the comparison see every level where the cut keeps what they need. -/
theorem seesEveryLevel_iff :
    SeesEveryLevel t column stored minExposureShare a b byProfile byFrame ↔
      Uncut t stored minExposureShare a b byProfile byFrame := by
  constructor
  · intro h
    obtain ⟨hnew, hknown⟩ := new_iff.mp h.new
    obtain ⟨hread, hmaterial⟩ := vanished_iff.mp h.vanished
    exact ⟨hnew, hknown, hread, hmaterial, own_vanished_iff.mp h.own_vanished,
      absent_iff.mp h.absent⟩
  · intro h
    refine ⟨new_iff.mpr ⟨h.new, h.known⟩, vanished_iff.mpr ⟨h.read, h.material⟩, own_new,
      own_vanished_iff.mpr h.own, ?_, absent_iff.mpr h.listed⟩
    rw [compareProfiles_profile, compareProfiles_profile]
    rfl

/-! ### A level that moves across the cut -/

def firstLevels (n : ℕ) : Version ℕ :=
  ⟨(List.range n).map fun k => (some k, 1), true, false, false⟩

/-- A level as so many strokes. -/
def strokes : LevelText ℕ where
  str n := String.ofList (List.replicate n '|')
  injective m n h := by
    simpa using congrArg String.length h

/-- Of twenty-one levels the last is cut, so it is not reported as new. -/
theorem twentyOne_unseen :
    ¬ SeesEveryLevel strokes "area" id 0 (firstLevels 21) (firstLevels 20) false true := by
  intro h
  have hcut : strokes.str 20 ∉ (newLevel strokes "area" (given strokes "area" id (firstLevels 20)
      false) (givenFrame (firstLevels 20) true) (some (firstLevels 21).rows)).levels := by
    decide
  apply hcut
  rw [h.new]
  exact ⟨20, by decide, by decide, rfl⟩

end Sees

end GiPricing.Validation
