import Mathlib
import GiPricing.Factors.Cross

/-! # The design of a GLM

The design columns that a fit builds over a frame, the terms it names them by, and the columns
that scoring reads back from the terms.
-/

namespace GiPricing.Factors

open Failure

/-- The grammar of a factor's slug. -/
def IsFactorSlug (slug : String) : Prop :=
  let edge (c : Char) := c.isLower || c.isDigit
  2 ≤ slug.length ∧ slug.length ≤ 63 ∧ slug.toList.head?.any edge = true ∧
    slug.toList.tail.all (fun c => edge c || c = '_' || c = '-') = true

instance (slug : String) : Decidable (IsFactorSlug slug) :=
  inferInstanceAs (Decidable (_ ∧ _ ∧ _ ∧ _))

/-- A column of the design over the rows of a frame; a missing cell stays missing. -/
abbrev DesignColumn (F : Type) (height : ℕ) := Fin height → Option F

/-- A column of a frame as its two casts; the cast to a number can fail. -/
structure Cells (F : Type) (height : ℕ) where
  text : Fin height → Option String
  number : Option (DesignColumn F height)

/-- The resolved factors: the frame, the column that each term reads, the categorical columns, and
what the exposure of some rows sums to. -/
structure FactorMatrix (F W : Type) (height : ℕ) where
  frame : String → Option (Cells F height)
  terms : Dict String
  categorical : List String
  exposure : (Fin height → Bool) → W
  slugs_ok : ∀ slug ∈ terms.keys, IsFactorSlug slug

inductive DesignError
  | columnNotFound (column : String)
  | castFailed (column : String)
  | unresolvedTerm (term : String)
  deriving DecidableEq, Repr

variable {F W : Type} [Zero F] [One F] [LinearOrder W] {height : ℕ}

def observedLevels (text : Fin height → Option String) : List String :=
  ((List.ofFn text).filterMap id).dedup.insertionSort (· ≤ ·)

/-- `_levels`: the levels with the one of the largest exposure first. -/
def baseFirst (exposure : (Fin height → Bool) → W) (text : Fin height → Option String) :
    List String :=
  let observed := observedLevels text
  let weight (level : String) := toLex (exposure fun i => text i = some level, level)
  match observed.argmax weight with
  | none => []
  | some base => base :: observed.filter (· ≠ base)

/-- `f"{slug}[{level}]"`. -/
def dummyTerm (slug level : String) : String := slug ++ "[" ++ level ++ "]"

/-- `(text == level).cast(pl.Float64)`. -/
def indicator (text : Fin height → Option String) (level : String) : DesignColumn F height :=
  fun i => (text i).map fun t => if t = level then 1 else 0

namespace FactorMatrix

variable (m : FactorMatrix F W height)

/-- The columns of one term with the names they are written under. -/
def termColumns (slug column : String) :
    Except DesignError (List (String × DesignColumn F height)) := do
  let cells ← require (m.frame column) (.columnNotFound column)
  if column ∈ m.categorical then
    return (baseFirst m.exposure cells.text).tail.map fun level =>
      (dummyTerm slug level, indicator cells.text level)
  else
    let number ← require cells.number (.castFailed column)
    return [(slug, number)]

/-- The columns of one factor, added to those before it. -/
def addTerm (columns : Dict (DesignColumn F height)) (term : String × String) :
    Except DesignError (Dict (DesignColumn F height)) :=
  (m.termColumns term.1 term.2).map fun written =>
    written.foldl (fun columns (name, series) => columns.insert name series) columns

/-- `_design`. -/
def design : Except DesignError (Dict (DesignColumn F height)) :=
  m.terms.entries.foldlM m.addTerm .empty

def fittedTerms (columns : Dict (DesignColumn F height)) : List String :=
  intercept :: columns.keys

/-- The column that scoring builds for one term. -/
def scoredColumn (term : String) : Except DesignError (DesignColumn F height) :=
  if term = intercept then .ok fun _ => some 1
  else match dummy? term with
    | some (slug, level) => do
      let column ← require (m.terms.get? slug) (.unresolvedTerm term)
      let cells ← require (m.frame column) (.columnNotFound column)
      return indicator cells.text level
    | none => do
      let column ← require (m.terms.get? term) (.unresolvedTerm term)
      let cells ← require (m.frame column) (.columnNotFound column)
      require cells.number (.castFailed column)

/-- `_design_columns`. -/
def designColumns (terms : List String) : Except DesignError (List (DesignColumn F height)) :=
  terms.mapM m.scoredColumn

end FactorMatrix

/-- `consumed_features` of the coefficients of a GLM; it refuses an empty list. -/
def consumedFeatures (terms : List String) : Option (List String) :=
  let names := (terms.filter (· ≠ intercept)).map termSlug
  if names = [] then none else some names.eraseDups

/-! ## The term of a level -/

/-- A level that its term gives back: it holds no bracket that opens one, and no line break. -/
def CleanLevel (level : String) : Prop := '[' ∉ level.toList ∧ '\n' ∉ level.toList

/-- Both readers of a term find the slug, and the scorer the level. -/
def ReadsBack (slug level : String) : Prop :=
  dummy? (dummyTerm slug level) = some (slug, level) ∧
    consumedFeatures [dummyTerm slug level] = some [slug]

theorem slug_plain {slug : String} (h : IsFactorSlug slug) {c : Char} (hc : c ∈ slug.toList) :
    c.isLower ∨ c.isDigit ∨ c = '_' ∨ c = '-' := by
  obtain ⟨-, -, hhead, htail⟩ := h
  cases hs : slug.toList with
  | nil => simp [hs] at hc
  | cons d rest =>
    rw [hs] at hc hhead htail
    rcases List.mem_cons.mp hc with rfl | hmem
    · simp only [List.head?_cons, Option.any_some, Bool.or_eq_true] at hhead
      tauto
    · have hd := List.all_eq_true.mp htail c hmem
      simp only [Bool.or_eq_true, decide_eq_true_eq] at hd
      tauto

theorem bracket_notMem {slug : String} (h : IsFactorSlug slug) : '[' ∉ slug.toList := by
  intro hc
  rcases slug_plain h hc with h | h | h | h <;> exact absurd h (by decide)

theorem lineBreak_notMem {slug : String} (h : IsFactorSlug slug) : '\n' ∉ slug.toList := by
  intro hc
  rcases slug_plain h hc with h | h | h | h <;> exact absurd h (by decide)

theorem toList_dummyTerm (slug level : String) :
    (dummyTerm slug level).toList = slug.toList ++ '[' :: (level.toList ++ [']']) := by
  simp [dummyTerm]

theorem beforeEnd_bracket (text : List Char) : beforeEnd (text ++ [']']) = text ++ [']'] := by
  simp [beforeEnd]

theorem dummy?_eq_readDummy (slug level : String) : dummy? (dummyTerm slug level) =
    readDummy (level.toList.reverse ++ '[' :: slug.toList.reverse) := by
  have htext : (beforeEnd (dummyTerm slug level).toList).reverse =
      ']' :: (level.toList.reverse ++ '[' :: slug.toList.reverse) := by
    rw [toList_dummyTerm, ← List.cons_append, ← List.append_assoc, beforeEnd_bracket]
    simp
  simp only [dummy?, htext]

theorem level_of_dummy {slug level level' : String}
    (h : dummy? (dummyTerm slug level) = some (slug, level')) : level' = level := by
  rw [dummy?_eq_readDummy] at h
  obtain ⟨hbody, -, -⟩ := of_readDummy h
  exact String.toList_inj.mp (List.reverse_injective (List.append_cancel_right hbody).symm)

theorem dummy?_dummyTerm {slug : String} (h : IsFactorSlug slug) (level : String) :
    dummy? (dummyTerm slug level) = some (slug, level) ↔ CleanLevel level := by
  rw [dummy?_eq_readDummy]
  constructor
  · intro hsome
    obtain ⟨-, hbracket, hbreak⟩ := of_readDummy hsome
    refine ⟨hbracket, fun hm => hbreak ?_⟩
    exact List.mem_append_left _ (List.mem_reverse.mpr hm)
  · rintro ⟨hbracket, hbreak⟩
    have hslug : slug.toList.reverse ≠ [] := by
      intro hnil
      have hlen := h.1
      rw [← String.length_toList, ← List.length_reverse, hnil] at hlen
      simp at hlen
    have hlines : '\n' ∉ level.toList.reverse ++ '[' :: slug.toList.reverse := by
      simp [hbreak, lineBreak_notMem h]
    rw [readDummy_append (by simpa using hbracket) hslug hlines, List.reverse_reverse,
      List.reverse_reverse, String.ofList_toList, String.ofList_toList]

theorem termSlug_dummyTerm {slug : String} (h : IsFactorSlug slug) (level : String) :
    termSlug (dummyTerm slug level) = slug := by
  have hplain : ∀ d ∈ slug.toList, decide (d ≠ '[') = true := by
    intro d hd
    rw [decide_eq_true_eq]
    rintro rfl
    exact bracket_notMem h hd
  rw [termSlug, toList_dummyTerm, List.takeWhile_append_of_pos hplain]
  simp

theorem bracket_mem_dummyTerm (slug level : String) : '[' ∈ (dummyTerm slug level).toList := by
  rw [toList_dummyTerm]
  simp

theorem dummyTerm_ne_intercept (slug level : String) : dummyTerm slug level ≠ intercept := by
  intro h
  have hmem := bracket_mem_dummyTerm slug level
  rw [h] at hmem
  exact absurd hmem (by decide)

theorem consumedFeatures_dummyTerm {slug : String} (h : IsFactorSlug slug) (level : String) :
    consumedFeatures [dummyTerm slug level] = some [slug] := by
  simp [consumedFeatures, dummyTerm_ne_intercept, termSlug_dummyTerm h, List.eraseDups_cons]

theorem readsBack_iff {slug : String} (h : IsFactorSlug slug) {level : String} :
    ReadsBack slug level ↔ CleanLevel level := by
  rw [ReadsBack, dummy?_dummyTerm h]
  exact and_iff_left (consumedFeatures_dummyTerm h level)

/-! ## The terms of a design -/

/-- The columns that a list of pairs adds to a mapping of other keys, in their order. -/
theorem entries_foldl_insert {α : Type*} : ∀ (l : List (String × α)) (d : Dict α),
    (d.keys ++ l.map Prod.fst).Nodup →
      (l.foldl (fun d (k, v) => d.insert k v) d).entries = d.entries ++ l
  | [], d, _ => by simp
  | (k, v) :: l, d, h => by
    have hk : k ∉ d.keys := by
      intro hm
      exact (List.nodup_append.mp h).2.2 k hm k (by simp) rfl
    have hinsert : (d.insert k v).entries = d.entries ++ [(k, v)] := by
      rw [Dict.insert, dif_neg hk]
    have hkeys : (d.insert k v).keys = d.keys ++ [k] := by
      rw [Dict.keys, hinsert, List.map_append]
      rfl
    rw [List.foldl_cons, entries_foldl_insert l (d.insert k v), hinsert, List.append_assoc]
    · rfl
    · rw [hkeys, List.append_assoc]
      simpa using h

theorem baseFirst_nodup (exposure : (Fin height → Bool) → W) (text : Fin height → Option String) :
    (baseFirst exposure text).Nodup := by
  have hobserved : (observedLevels text).Nodup :=
    (List.perm_insertionSort _ _).nodup_iff.mpr (List.nodup_dedup _)
  unfold baseFirst
  dsimp only
  split
  · exact List.nodup_nil
  · refine List.nodup_cons.mpr ⟨?_, hobserved.filter _⟩
    simp

namespace FactorMatrix

variable (m : FactorMatrix F W height)

/-- A term of a categorical column, with the level it is written for. -/
def Written (slug level : String) : Prop :=
  ∃ column cells, m.terms.get? slug = some column ∧ column ∈ m.categorical ∧
    m.frame column = some cells ∧ level ∈ (baseFirst m.exposure cells.text).tail

/-- A numeric factor named as the intercept is. -/
def NumericIntercept : Prop :=
  ∃ column, m.terms.get? intercept = some column ∧ column ∉ m.categorical

inductive TermOf (slug column : String) : String → DesignColumn F height → Prop
  | level {cells : Cells F height} {level : String} : column ∈ m.categorical →
      m.frame column = some cells → level ∈ (baseFirst m.exposure cells.text).tail →
      TermOf slug column (dummyTerm slug level) (indicator cells.text level)
  | number {cells : Cells F height} {number : DesignColumn F height} :
      column ∉ m.categorical → m.frame column = some cells → cells.number = some number →
      TermOf slug column slug number

variable {m}

theorem TermOf.termSlug_eq {slug column name : String} {series : DesignColumn F height}
    (h : m.TermOf slug column name series) (hslug : IsFactorSlug slug) : termSlug name = slug := by
  cases h with
  | level _ _ _ => exact termSlug_dummyTerm hslug _
  | number _ _ _ => exact termSlug_of_plain (bracket_notMem hslug)

theorem dummyTerm_injective (slug : String) : Function.Injective (dummyTerm slug) := by
  intro a b h
  have htext := congrArg String.toList h
  rw [toList_dummyTerm, toList_dummyTerm] at htext
  exact String.toList_inj.mp (by simpa using htext)

theorem of_termColumns {slug column : String} {written : List (String × DesignColumn F height)}
    (h : m.termColumns slug column = .ok written) :
    (written.map Prod.fst).Nodup ∧ ∀ e ∈ written, m.TermOf slug column e.1 e.2 := by
  unfold termColumns at h
  obtain ⟨cells, hcells, h⟩ := require_bind_eq_ok.mp h
  split_ifs at h with hcat
  · obtain rfl := pure_eq_ok.mp h
    constructor
    · rw [List.map_map]
      exact ((baseFirst_nodup m.exposure cells.text).tail).map (dummyTerm_injective slug)
    · intro e he
      obtain ⟨level, hlevel, rfl⟩ := List.mem_map.mp he
      exact .level hcat hcells hlevel
  · obtain ⟨number, hnumber, h⟩ := require_bind_eq_ok.mp h
    obtain rfl := pure_eq_ok.mp h
    constructor
    · simp
    · intro e he
      obtain rfl := List.mem_singleton.mp he
      exact .number hcat hcells hnumber

/-- The design is the terms of the factors, in their order. -/
theorem entries_of_foldlM : ∀ {l : List (String × String)}
    {acc columns : Dict (DesignColumn F height)},
    (l.map Prod.fst).Nodup → (∀ e ∈ l, IsFactorSlug e.1) →
    (∀ k ∈ acc.keys, termSlug k ∉ l.map Prod.fst) →
    l.foldlM m.addTerm acc = .ok columns →
    ∃ blocks, List.Forall₂ (fun e block => m.termColumns e.1 e.2 = .ok block) l blocks ∧
      columns.entries = acc.entries ++ blocks.flatten
  | [], acc, columns, _, _, _, h => by
    obtain rfl := pure_eq_ok.mp h
    exact ⟨[], .nil, by simp⟩
  | (slug, column) :: l, acc, columns, hn, hs, hacc, h => by
    obtain ⟨next, hnext, hrest⟩ := foldlM_cons_eq_ok.mp h
    obtain ⟨block, hblock, rfl⟩ := map_eq_ok.mp hnext
    obtain ⟨hnodup, hterms⟩ := of_termColumns hblock
    obtain ⟨hfresh, hn⟩ := List.nodup_cons.mp hn
    have hslug : IsFactorSlug slug := hs (slug, column) List.mem_cons_self
    have hnames : ∀ k ∈ block.map Prod.fst, termSlug k = slug := by
      intro k hk
      obtain ⟨e, he, rfl⟩ := List.mem_map.mp hk
      exact (hterms e he).termSlug_eq hslug
    have hentries := entries_foldl_insert block acc (by
      refine List.nodup_append.mpr ⟨acc.nodup, hnodup, ?_⟩
      rintro k hk _ hk' rfl
      exact hacc k hk (by simp [hnames k hk']))
    obtain ⟨blocks, hblocks, heq⟩ := entries_of_foldlM hn
      (fun e he => hs e (List.mem_cons_of_mem _ he)) (by
        intro k hk
        rw [Dict.keys, hentries, List.map_append] at hk
        rcases List.mem_append.mp hk with hk | hk
        · exact fun hm => hacc k hk (List.mem_cons_of_mem _ hm)
        · rw [hnames k hk]
          exact hfresh) hrest
    exact ⟨block :: blocks, .cons hblock hblocks, by rw [heq, hentries]; simp⟩

theorem of_design {columns : Dict (DesignColumn F height)} (h : m.design = .ok columns) :
    (∀ e ∈ columns.entries, ∃ slug column, m.terms.get? slug = some column ∧
      m.TermOf slug column e.1 e.2) ∧
    ∀ slug column, m.terms.get? slug = some column → ∃ block : List (String × _),
      m.termColumns slug column = .ok block ∧ ∀ e ∈ block, e ∈ columns.entries := by
  obtain ⟨blocks, hblocks, heq⟩ := entries_of_foldlM m.terms.nodup
    (fun e he => m.slugs_ok e.1 (List.mem_map_of_mem he)) (by intro k hk; cases hk) h
  have hentries : columns.entries = blocks.flatten := heq.trans (List.nil_append _)
  constructor
  · intro e he
    rw [hentries] at he
    obtain ⟨block, hb, he⟩ := List.mem_flatten.mp he
    obtain ⟨⟨slug, column⟩, hmem, hblock⟩ := exists_of_forall₂ hblocks.flip hb
    exact ⟨slug, column, m.terms.get?_eq_some.mpr hmem, (of_termColumns hblock).2 e he⟩
  · intro slug column hterm
    obtain ⟨block, hb, hblock⟩ := exists_of_forall₂ hblocks (m.terms.get?_eq_some.mp hterm)
    refine ⟨block, hblock, fun e he => ?_⟩
    rw [hentries]
    exact List.mem_flatten_of_mem hb he

/-! ## Reading the terms back -/

/-- The fitted terms are different, give back what they were written for, and score the frame of
the fit with the columns of the fit. -/
def RoundTrips (m : FactorMatrix F W height) (columns : Dict (DesignColumn F height)) : Prop :=
  (fittedTerms columns).Nodup ∧ (∀ slug level, m.Written slug level → ReadsBack slug level) ∧
    m.designColumns (fittedTerms columns) = .ok ((fun _ => some 1) :: columns.values)

omit [Zero F] [One F] in
theorem Written.isFactorSlug {slug level : String} (h : m.Written slug level) :
    IsFactorSlug slug := by
  obtain ⟨column, -, hterm, -⟩ := h
  exact m.slugs_ok slug (List.mem_map_of_mem (m.terms.get?_eq_some.mp hterm))

/-- The term of a column scores it, where its level is clean and it is not the intercept's. -/
theorem scoredColumn_eq {slug column name : String} {series : DesignColumn F height}
    (hterm : m.terms.get? slug = some column) (h : m.TermOf slug column name series)
    (hintercept : ¬ m.NumericIntercept)
    (hclean : ∀ slug level, m.Written slug level → CleanLevel level) :
    m.scoredColumn name = .ok series := by
  have hslug : IsFactorSlug slug :=
    m.slugs_ok slug (List.mem_map_of_mem (m.terms.get?_eq_some.mp hterm))
  cases h with
  | @level cells level hcat hcells hlevel =>
    have hread := (dummy?_dummyTerm hslug level).mpr
      (hclean slug level ⟨column, cells, hterm, hcat, hcells, hlevel⟩)
    rw [scoredColumn, if_neg (dummyTerm_ne_intercept slug level), hread]
    dsimp only
    rw [hterm]
    simp only [require_bind_eq_ok, pure_eq_ok]
    exact ⟨column, rfl, cells, hcells, rfl⟩
  | @number cells number hcat hcells hnumber =>
    have hne : slug ≠ intercept := by
      rintro rfl
      exact hintercept ⟨column, hterm, hcat⟩
    have hread : dummy? slug = none := by
      cases hd : dummy? slug with
      | none => rfl
      | some p =>
        obtain ⟨rest, hrest⟩ := toList_of_dummy hd
        exact absurd (by rw [hrest]; simp) (bracket_notMem hslug)
    rw [scoredColumn, if_neg hne, hread]
    dsimp only
    rw [hterm]
    simp only [require_bind_eq_ok, require_eq_ok]
    exact ⟨column, rfl, cells, hcells, hnumber⟩

theorem intercept_mem_keys {columns : Dict (DesignColumn F height)} (h : m.design = .ok columns) :
    intercept ∈ columns.keys ↔ m.NumericIntercept := by
  obtain ⟨hterms, hblocks⟩ := of_design h
  constructor
  · intro hm
    obtain ⟨⟨name, series⟩, he, hi⟩ := List.mem_map.mp hm
    obtain ⟨slug, column, hterm, hof⟩ := hterms _ he
    dsimp only at hi hof
    cases hof with
    | level _ _ _ => exact absurd hi (dummyTerm_ne_intercept _ _)
    | number hcat _ _ => exact ⟨column, by rw [← hi]; exact hterm, hcat⟩
  · rintro ⟨column, hterm, hcat⟩
    obtain ⟨block, hblock, hmem⟩ := hblocks intercept column hterm
    unfold termColumns at hblock
    obtain ⟨cells, -, hblock⟩ := require_bind_eq_ok.mp hblock
    rw [if_neg hcat] at hblock
    obtain ⟨number, -, hblock⟩ := require_bind_eq_ok.mp hblock
    obtain rfl := pure_eq_ok.mp hblock
    exact List.mem_map_of_mem (hmem _ (List.mem_singleton.mpr rfl))

/-- The terms of an accepted design decode to what they encode exactly when no numeric factor is
named as the intercept and every level of a term is clean; a level's own term is read back exactly
when it is clean. -/
theorem design_roundTrips_iff :
    (∀ slug level, IsFactorSlug slug → (ReadsBack slug level ↔ CleanLevel level)) ∧
    ∀ (m : FactorMatrix F W height) (columns : Dict (DesignColumn F height)),
      m.design = .ok columns →
        (m.RoundTrips columns ↔ ¬ m.NumericIntercept ∧
          ∀ slug level, m.Written slug level → CleanLevel level) := by
  refine ⟨fun slug level hslug => readsBack_iff hslug, fun m columns h => ?_⟩
  constructor
  · rintro ⟨hnodup, hreads, -⟩
    constructor
    · intro hi
      exact (List.nodup_cons.mp hnodup).1 ((intercept_mem_keys h).mpr hi)
    · intro slug level hw
      exact (readsBack_iff hw.isFactorSlug).mp (hreads slug level hw)
  · rintro ⟨hintercept, hclean⟩
    refine ⟨?_, ?_, ?_⟩
    · exact List.nodup_cons.mpr ⟨fun hm => hintercept ((intercept_mem_keys h).mp hm), columns.nodup⟩
    · intro slug level hw
      exact (readsBack_iff hw.isFactorSlug).mpr (hclean slug level hw)
    · rw [designColumns, mapM_eq_ok]
      refine .cons ?_ ?_
      · rw [scoredColumn, if_pos rfl]
      · rw [Dict.keys, Dict.values, List.forall₂_map_left_iff, List.forall₂_map_right_iff,
          List.forall₂_same]
        intro e he
        obtain ⟨slug, column, hterm, hof⟩ := (of_design h).1 e he
        exact scoredColumn_eq hterm hof hintercept hclean

/-- Two rows of one categorical factor, with the levels `B[x` and `C`. -/
def areaCells : Cells ℤ 2 := ⟨fun i => if i.val = 0 then some "B[x" else some "C", none⟩

theorem area_nodup : ([("area", "area__resolved")].map Prod.fst).Nodup := by decide

theorem area_slugs_ok : ∀ slug ∈ [("area", "area__resolved")].map Prod.fst, IsFactorSlug slug := by
  decide

def areaMatrix : FactorMatrix ℤ ℕ 2 where
  frame column := if column = "area__resolved" then some areaCells else none
  terms := ⟨[("area", "area__resolved")], area_nodup⟩
  categorical := ["area__resolved"]
  exposure rows := (List.ofFn rows).count true
  slugs_ok := area_slugs_ok

theorem design_roundTrips_iff_area : ∃ columns, areaMatrix.design = .ok columns ∧
    (areaMatrix.RoundTrips columns ↔ ¬ areaMatrix.NumericIntercept ∧
      ∀ slug level, areaMatrix.Written slug level → CleanLevel level) ∧
    (ReadsBack "area" "A | B" ↔ CleanLevel "A | B") :=
  ⟨_, rfl, design_roundTrips_iff.2 areaMatrix _ rfl,
    (@design_roundTrips_iff ℤ ℕ _ _ _ 2).1 "area" "A | B" (by decide)⟩

/-- A group with a bracket in its name is read back as a level of another factor. -/
theorem not_roundTrips_area : ∃ columns, areaMatrix.design = .ok columns ∧
    dummy? (dummyTerm "area" "B[x") = some ("area[B", "x") ∧ ¬ areaMatrix.RoundTrips columns := by
  refine ⟨_, rfl, by decide, fun h => ?_⟩
  have hread := h.2.1 "area" "B[x"
    ⟨"area__resolved", areaCells, rfl, by decide, rfl, by decide⟩
  exact ((readsBack_iff (by decide)).mp hread).1 (by decide)

end FactorMatrix

end GiPricing.Factors
