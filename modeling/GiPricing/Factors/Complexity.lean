import GiPricing.Factors.Frames
import GiPricing.Relational.Distinct
import Mathlib.Data.Rat.Cast.Order

/-! # The complexity gate

The gate estimates the parameters of a model from a profile of the columns, before anything is fitted.
A fit spends a parameter for each column of its design and one for the intercept.
-/

namespace GiPricing.Factors.Frames

open Failure Bandings Relational

deriving instance DecidableEq for Factor

/-! ## The estimate -/

structure ColumnProfile where
  distinct_count : ℕ
  null_count : ℕ

abbrev Profile := Dict ColumnProfile

variable {N F W : Type} [DecidableEq N] [LinearOrder F] [Zero F] [One F] [LinearOrder W]
  {height : ℕ}

/-- `profile_frame`, what the estimate reads of it: each column's counts. -/
def profileFrame (frame : Frame N height) : Profile :=
  frame.mapValues fun s =>
    ⟨distinct s.cells, (List.ofFn s.cells).countP Option.isNone⟩

/-- `_expression_levels` -/
def expressionLevels (f : Factor) (columns : Profile) : Option ℕ :=
  (f.source_columns.mapM columns.get?).map fun cs =>
    (cs.map fun c => c.distinct_count + if c.null_count ≠ 0 then 1 else 0).prod

/-- The parameters counted for one factor. -/
def counted (columns : Profile) (f : Factor) : ℕ :=
  let found := if f.type = .expression then expressionLevels f columns
    else (columns.get? (f.source_columns.headD f.slug)).map ColumnProfile.distinct_count
  match found with
  | some levels => if 1 < levels then max (levels - 1) 1 else 1
  | none => 1

/-- `_estimated_parameters` -/
def estimatedParameters (factors : List Factor) (profile : Option Profile) : ℕ :=
  1 + (factors.map (counted (profile.getD .empty))).sum

/-- `_unbounded_expressions` -/
def unboundedExpressions (factors : List Factor) (profile : Option Profile) : List String :=
  (factors.filter fun f => f.type = .expression ∧
    expressionLevels f (profile.getD .empty) = none).map Factor.slug

inductive SpecProblem
  | maxFactorCount
  | minExposurePerParameter
  | unbounded (slug : String)
  deriving DecidableEq

/-- `complexity_or_refuse`: the problems found, and the estimate. -/
def complexityOrRefuse (factors : List Factor) (profile : Option Profile)
    (exposure_years : Option ℚ≥0) (max_factor_count : Option ℕ)
    (min_exposure_per_parameter : Option ℚ) : List SpecProblem × ℕ × Option ℚ :=
  let parameters := estimatedParameters factors profile
  let per_parameter := exposure_years.map fun e => (e : ℚ) / parameters
  let tooMany := match max_factor_count with
    | some limit => if limit < factors.length then [SpecProblem.maxFactorCount] else []
    | none => []
  let tooThin := match per_parameter, min_exposure_per_parameter with
    | some exposure, some least => if exposure < least then [.minExposurePerParameter] else []
    | _, _ => []
  let unbounded := match min_exposure_per_parameter with
    | some _ => (unboundedExpressions factors profile).map .unbounded
    | none => []
  (tooMany ++ tooThin ++ unbounded, parameters, per_parameter)

/-! ## What a fit spends -/

section Spent

variable (engine : Engine N F) (frame : Frame N height)

def levelCount (s : Series N height) : ℕ := distinct (s.text engine)

/-- The design columns of a term. -/
def width (r : Resolution N height) (e : String × Column) : ℕ :=
  match r.column frame e.2 with
  | none => 0
  | some s => if e.2 ∈ r.categorical then levelCount engine s - 1 else 1

def fittedParameters (columns : Dict (DesignColumn F height)) : ℕ := 1 + columns.entries.length

end Spent

variable {engine : Engine N F} {artifacts : Artifacts F} {frame : Frame N height}
  {factors : List Factor} {exposure : (Fin height → Bool) → W} {r : Resolution N height}

/-! ### The size of a design -/

omit [DecidableEq N] [LinearOrder F] [Zero F] [One F] in
theorem length_baseFirst (text : Fin height → Option String) :
    (baseFirst exposure text).length = distinct text := by
  have hnodup : (observedLevels text).Nodup :=
    (List.perm_insertionSort _ _).nodup_iff.mpr (List.nodup_dedup _)
  have hlength : (observedLevels text).length = distinct text := List.length_insertionSort _ _
  unfold baseFirst
  dsimp only
  cases hbase : (observedLevels text).argmax
      (fun level => toLex (exposure fun i => decide (text i = some level), level)) with
  | none =>
    rw [List.argmax_eq_none] at hbase
    rw [← hlength, hbase]
  | some base =>
    have hmem : base ∈ observedLevels text := List.argmax_mem hbase
    have hfilter : (observedLevels text).filter (· ≠ base) = (observedLevels text).erase base := by
      rw [hnodup.erase_eq_filter]
      apply List.filter_congr
      intro level _
      by_cases h : level = base <;> simp [h]
    rw [List.length_cons, hfilter, List.length_erase_of_mem hmem, hlength]
    have hpos := List.length_pos_of_mem hmem
    omega

omit [DecidableEq N] [LinearOrder F] in
theorem length_termColumns {e : String × Column} {block : List (String × DesignColumn F height)}
    (h : termColumns engine frame exposure r e.1 e.2 = .ok block) :
    block.length = width engine frame r e := by
  obtain ⟨series, hseries, h⟩ := require_bind_eq_ok.mp h
  unfold width
  rw [hseries]
  dsimp only
  split_ifs at h ⊢ with hlevels
  · obtain rfl := pure_eq_ok.mp h
    rw [List.length_map, List.length_tail, length_baseFirst]
    rfl
  · obtain ⟨number, -, h⟩ := require_bind_eq_ok.mp h
    obtain rfl := pure_eq_ok.mp h
    rfl

theorem termSlug_dummy {slug : String} (h : '[' ∉ slug.toList) (level : String) :
    termSlug (dummyTerm slug level) = slug := by
  have hplain : ∀ d ∈ slug.toList, decide (d ≠ '[') = true := by
    intro d hd
    rw [decide_eq_true_eq]
    rintro rfl
    exact h hd
  rw [termSlug, toList_dummyTerm, List.takeWhile_append_of_pos hplain]
  simp

omit [DecidableEq N] [LinearOrder F] in
theorem termSlug_of_termColumns {e : String × Column}
    {block : List (String × DesignColumn F height)} (hslug : '[' ∉ e.1.toList)
    (h : termColumns engine frame exposure r e.1 e.2 = .ok block) :
    (block.map Prod.fst).Nodup ∧ ∀ k ∈ block.map Prod.fst, termSlug k = e.1 := by
  obtain ⟨series, -, h⟩ := require_bind_eq_ok.mp h
  split_ifs at h with hlevels
  · obtain rfl := pure_eq_ok.mp h
    rw [List.map_map]
    constructor
    · exact (baseFirst_nodup exposure _).tail.map (FactorMatrix.dummyTerm_injective e.1)
    · intro k hk
      obtain ⟨level, -, rfl⟩ := List.mem_map.mp hk
      exact termSlug_dummy hslug level
  · obtain ⟨number, -, h⟩ := require_bind_eq_ok.mp h
    obtain rfl := pure_eq_ok.mp h
    simp [termSlug_of_plain hslug]

omit [DecidableEq N] [LinearOrder F] in
theorem entries_of_design : ∀ {l : List (String × Column)} {acc columns : Dict (DesignColumn F height)},
    (l.map Prod.fst).Nodup → (∀ e ∈ l, '[' ∉ e.1.toList) →
    (∀ k ∈ acc.keys, termSlug k ∉ l.map Prod.fst) →
    l.foldlM (fun columns e => (termColumns engine frame exposure r e.1 e.2).map fun written =>
      written.foldl (fun columns c => columns.insert c.1 c.2) columns) acc = .ok columns →
    ∃ blocks, List.Forall₂ (fun e block => termColumns engine frame exposure r e.1 e.2 = .ok block)
      l blocks ∧ columns.entries = acc.entries ++ blocks.flatten
  | [], acc, columns, _, _, _, h => by
    obtain rfl := pure_eq_ok.mp h
    exact ⟨[], .nil, by simp⟩
  | e :: l, acc, columns, hn, hs, hacc, h => by
    obtain ⟨next, hnext, hrest⟩ := foldlM_cons_eq_ok.mp h
    obtain ⟨block, hblock, rfl⟩ := map_eq_ok.mp hnext
    obtain ⟨hnodup, hnames⟩ := termSlug_of_termColumns (hs e List.mem_cons_self) hblock
    obtain ⟨hfresh, hn⟩ := List.nodup_cons.mp hn
    have hentries := entries_foldl_insert block acc (by
      refine List.nodup_append.mpr ⟨acc.nodup, hnodup, ?_⟩
      rintro k hk _ hk' rfl
      exact hacc k hk (by simp [hnames k hk']))
    obtain ⟨blocks, hblocks, heq⟩ := entries_of_design hn
      (fun e he => hs e (List.mem_cons_of_mem _ he)) (by
        intro k hk
        rw [Dict.keys, hentries, List.map_append] at hk
        rcases List.mem_append.mp hk with hk | hk
        · exact fun hm => hacc k hk (List.mem_cons_of_mem _ hm)
        · rw [hnames k hk]
          exact hfresh) hrest
    exact ⟨block :: blocks, .cons hblock hblocks, by rw [heq, hentries]; simp⟩

omit [DecidableEq N] [LinearOrder F] in
theorem lengths_of_blocks {l : List (String × Column)}
    {blocks : List (List (String × DesignColumn F height))}
    (h : List.Forall₂ (fun e block => termColumns engine frame exposure r e.1 e.2 = .ok block)
      l blocks) : blocks.map List.length = l.map (width engine frame r) := by
  induction h with
  | nil => rfl
  | cons hblock _ ih => rw [List.map_cons, List.map_cons, ih, length_termColumns hblock]

omit [DecidableEq N] in
theorem fittedParameters_eq {columns : Dict (DesignColumn F height)}
    (hr : resolveFactorColumns engine artifacts frame factors = .ok r)
    (h : design engine frame exposure r = .ok columns) :
    fittedParameters columns = 1 + (r.terms.entries.map (width engine frame r)).sum := by
  have hmade := made_of_resolve hr
  have hslugs : ∀ e ∈ r.terms.entries, '[' ∉ e.1.toList := by
    intro e he
    obtain ⟨f, hf⟩ := Option.isSome_iff_exists.mp (hmade.terms e he)
    obtain ⟨-, hslug, -⟩ := of_makerIn hf
    exact hslug ▸ f.slug_ok
  obtain ⟨blocks, hblocks, heq⟩ :=
    entries_of_design r.terms.nodup hslugs (by intro k hk; cases hk) h
  rw [fittedParameters, heq, ← lengths_of_blocks hblocks]
  have hnil : (Dict.empty : Dict (DesignColumn F height)).entries = [] := rfl
  rw [hnil, List.nil_append, List.length_flatten]

/-! ### Factors that the gate does not under-count -/

/-- A factor that the gate may count below its columns: an interaction, or a banding of a column
with a null. -/
def MayUndercount (frame : Frame N height) (f : Factor) : Prop :=
  f.type = .interaction ∨
    f.type = .banding ∧ (frame.get? f.source).any (fun s => decide s.hasNull) = true

instance (f : Factor) : Decidable (MayUndercount frame f) := inferInstanceAs (Decidable (_ ∨ _))

theorem one_le_counted {columns : Profile} {f : Factor} : 1 ≤ counted columns f := by
  unfold counted
  dsimp only
  split
  · split_ifs <;> omega
  · exact le_rfl

theorem le_counted {columns : Profile} {f : Factor} {found levels : ℕ}
    (hfound : (if f.type = .expression then expressionLevels f columns
      else (columns.get? (f.source_columns.headD f.slug)).map ColumnProfile.distinct_count) =
        some found) (h : levels ≤ found) : levels - 1 ≤ counted columns f := by
  unfold counted
  dsimp only
  rw [hfound]
  dsimp only
  split_ifs <;> omega

theorem profileFrame_get? (name : String) : (profileFrame frame).get? name =
    (frame.get? name).map fun s =>
      ⟨distinct s.cells, (List.ofFn s.cells).countP Option.isNone⟩ := by
  rw [Option.ext_iff]
  intro p
  simp only [Dict.get?_eq_some, Option.map_eq_some_iff, profileFrame, Dict.mapValues, List.mem_map,
    Prod.mk.injEq]
  constructor
  · rintro ⟨⟨k, v⟩, hm, rfl, rfl⟩
    exact ⟨v, hm, rfl⟩
  · rintro ⟨v, hm, rfl⟩
    exact ⟨(name, v), hm, rfl, rfl⟩

section Bounds

variable {f : Factor} {series source : Series N height}

omit [DecidableEq N] [LinearOrder F] [Zero F] [One F] in
theorem levelCount_ofTexts {texts : Fin height → Option String} :
    levelCount engine (.ofTexts texts : Series N height) = distinct texts := by
  have htext : (Series.ofTexts texts : Series N height).text engine = texts := by
    funext i
    simp [Series.text, Series.ofTexts, Function.comp_def, Cell.string]
  rw [levelCount, htext]

omit [DecidableEq N] in
theorem bandSeries_text {slug : String} {b : Banding F}
    (h : bandSeries engine slug b source = .ok series) :
    ∃ texts, series = .ofTexts texts ∧
      ∀ i, texts i = b.cellLabel ((source.cells i).bind (Cell.float engine)) := by
  unfold bandSeries at h
  split at h
  · cases h
  · rename_i out hout
    obtain rfl := Except.ok.inj h
    refine ⟨_, rfl, fun i => ?_⟩
    obtain ⟨hlength, hall⟩ := List.forall₂_iff_get.mp (Banding.applyBanding_eq_ok.mp hout)
    rw [List.length_map, List.length_ofFn] at hlength
    have hlabel := hall i.val (by simp) (by omega)
    simp only [List.get_eq_getElem, List.getElem_map, List.getElem_ofFn] at hlabel
    rw [List.getElem?_eq_getElem (by omega)]
    exact hlabel.symm

theorem levelCount_bandSeries {slug : String} {b : Banding F}
    (h : bandSeries engine slug b source = .ok series) (hnull : ¬ source.hasNull) :
    levelCount engine series ≤ distinct source.cells := by
  obtain ⟨texts, rfl, htexts⟩ := bandSeries_text h
  rw [levelCount_ofTexts]
  apply distinct_le (f := fun c => (b.cellLabel (Cell.float engine c)).getD "")
  intro i label hlabel
  cases hcell : source.cells i with
  | none => exact absurd ⟨i, hcell⟩ hnull
  | some c =>
    refine ⟨c, rfl, ?_⟩
    have hband := htexts i
    rw [hlabel, hcell, Option.bind_some] at hband
    rw [← hband, Option.getD_some]

omit [LinearOrder F] [Zero F] [One F] in
theorem levelCount_text : levelCount engine series ≤ distinct series.cells := by
  apply distinct_le (f := Cell.string engine)
  intro i level hlevel
  exact Option.map_eq_some_iff.mp hlevel

omit [LinearOrder F] [Zero F] [One F] in
theorem levelCount_groupSeries {slug : String} {g : Grouping}
    (h : groupSeries engine slug g source = .ok series) :
    levelCount engine series ≤ distinct source.cells := by
  unfold groupSeries at h
  split_ifs at h with htargets
  obtain rfl := Except.ok.inj h
  rw [levelCount_ofTexts]
  apply distinct_le (f := fun c => (g.target (Cell.string engine c)).getD "")
  intro i level hlevel
  obtain ⟨text, htext, htarget⟩ := Option.bind_eq_some_iff.mp hlevel
  obtain ⟨c, hc, rfl⟩ := Option.map_eq_some_iff.mp htext
  exact ⟨c, hc, by rw [htarget, Option.getD_some]⟩

theorem levelCount_expressionSeries
    (h : expressionSeries engine artifacts frame f = .ok series) : levelCount engine series ≤
      ((f.source_columns.filterMap frame.get?).map fun s =>
        distinct s.cells + nullLevel s.cells).prod := by
  obtain ⟨expression, -, h⟩ := require_bind_eq_ok.mp h
  obtain ⟨⟨kind, value⟩, -, h⟩ := require_bind_eq_ok.mp h
  have hprod : ∀ (label : Option (Cell N) → Option String) {texts : Fin height → Option String},
      (∀ i, texts i = label (value ((f.source_columns.filterMap frame.get?).map fun s => s.cells i))) →
      distinct texts ≤ ((f.source_columns.filterMap frame.get?).map fun s =>
        distinct s.cells + nullLevel s.cells).prod := by
    intro label texts htexts
    have hle : distinct texts ≤ (((f.source_columns.filterMap frame.get?).map Series.cells).map
        fun cells => distinct cells + nullLevel cells).prod := by
      apply distinct_le_prod (f := fun l => label (value l))
      intro i
      rw [List.map_map]
      exact htexts i
    rwa [List.map_map] at hle
  cases hid : f.banding_id with
  | none =>
    simp only [hid, ensure_bind_eq_ok, pure_eq_ok] at h
    obtain ⟨-, rfl⟩ := h
    exact hprod (Option.map (Cell.string engine)) fun i => rfl
  | some id =>
    simp only [hid, ensure_bind_eq_ok, require_bind_eq_ok] at h
    obtain ⟨-, pinned, -, -, hband⟩ := h
    obtain ⟨texts, rfl, htexts⟩ := bandSeries_text hband
    rw [levelCount_ofTexts]
    exact hprod (fun c => pinned.banding.cellLabel (c.bind (Cell.float engine))) htexts

omit [DecidableEq N] [LinearOrder F] [Zero F] [One F] in
theorem nullLevel_eq (s : Series N height) :
    (if (List.ofFn s.cells).countP Option.isNone ≠ 0 then 1 else 0) = nullLevel s.cells := by
  have hnull : (List.ofFn s.cells).countP Option.isNone ≠ 0 ↔ ∃ i, s.cells i = none := by
    rw [Ne, List.countP_eq_zero]
    simp [List.mem_ofFn]
  rw [nullLevel, if_congr hnull rfl rfl]

omit [LinearOrder F] [Zero F] [One F] in
theorem expressionLevels_eq (h : ∀ c ∈ f.source_columns, (frame.get? c).isSome = true) :
    expressionLevels f (profileFrame frame) = some ((f.source_columns.filterMap frame.get?).map
      fun s => distinct s.cells + nullLevel s.cells).prod := by
  unfold expressionLevels
  revert h
  induction f.source_columns with
  | nil => simp
  | cons c cs ih =>
    intro h
    obtain ⟨hc, hcs⟩ := List.forall_mem_cons.mp h
    obtain ⟨s, hs⟩ := Option.isSome_iff_exists.mp hc
    obtain ⟨ps, hps, hprod⟩ := Option.map_eq_some_iff.mp (ih hcs)
    have hp : (profileFrame frame).get? c =
        some ⟨distinct s.cells, (List.ofFn s.cells).countP Option.isNone⟩ := by
      rw [profileFrame_get?, hs]
      rfl
    rw [List.mapM_cons, hp, hps, List.filterMap_cons_some hs, List.map_cons, List.prod_cons, ← hprod,
      ← nullLevel_eq]
    rfl

end Bounds

theorem levelCount_plainSeries {f : Factor} {series : Series N height}
    (h : plainSeries engine artifacts frame f = .ok series) (hcounts : ¬ MayUndercount frame f)
    (hexpression : f.type ≠ .expression) : ∃ source, frame.get? f.source = some source ∧
      levelCount engine series ≤ distinct source.cells := by
  cases htype : f.type with
  | identity =>
    simp only [plainSeries, htype, require_eq_ok] at h
    exact ⟨series, h, levelCount_text⟩
  | banding =>
    simp only [plainSeries, htype, require_bind_eq_ok, ensure_bind_eq_ok] at h
    obtain ⟨pinned, -, -, source, hsource, hband⟩ := h
    refine ⟨source, hsource, levelCount_bandSeries hband fun hnull => hcounts (Or.inr ?_)⟩
    exact ⟨htype, by rw [hsource, Option.any_some, decide_eq_true hnull]⟩
  | grouping =>
    simp only [plainSeries, htype, require_bind_eq_ok, ensure_bind_eq_ok] at h
    obtain ⟨grouping, -, -, source, hsource, hgroup⟩ := h
    exact ⟨source, hsource, levelCount_groupSeries hgroup⟩
  | expression => exact absurd htype hexpression
  | interaction => simp [plainSeries, htype] at h
  | spline => simp [plainSeries, htype] at h
  | polynomial => simp [plainSeries, htype] at h
  | offset => simp [plainSeries, htype] at h

omit [DecidableEq N] in
theorem sources_of_resolve {f : Factor}
    (hr : resolveFactorColumns engine artifacts frame factors = .ok r) (hf : f ∈ factors) :
    ∀ c ∈ f.source_columns, (frame.get? c).isSome = true := by
  obtain ⟨_, -, hcheck⟩ := bind_eq_ok.mp (checked_of_resolve hr hf)
  obtain ⟨_, -, hcheck⟩ := bind_eq_ok.mp hcheck
  exact ensure_eq_ok.mp hcheck

/-- A factor that cannot be under-counted is counted for at least its columns. -/
theorem width_le_counted {e : String × Column} {f : Factor}
    (hr : resolveFactorColumns engine artifacts frame factors = .ok r)
    (hsources : ∀ f ∈ factors, f.type ≠ .interaction → f.source_columns ≠ [])
    (hf : makerIn (writers factors) e.1 e.2 = some f) (hcounts : ¬ MayUndercount frame f) :
    width engine frame r e ≤ counted (profileFrame frame) f := by
  obtain ⟨series, hseries, hplain⟩ := (made_of_resolve hr).column e.1 e.2 f hf
  have hmem : f ∈ factors := mem_writers.mp (of_makerIn hf).1
  have htype : f.type ≠ .interaction := fun h => hcounts (Or.inl h)
  have hlevels : levelCount engine series - 1 ≤ counted (profileFrame frame) f := by
    have hplain : plainSeries engine artifacts frame f = .ok series := by
      rwa [Makes, if_neg htype] at hplain
    have hsource : f.source_columns.headD f.slug = f.source := by
      obtain ⟨c, cs, hcs⟩ := List.exists_cons_of_ne_nil (hsources f hmem htype)
      rw [Factor.source, hcs]
      rfl
    by_cases hexpression : f.type = .expression
    · have hseries : expressionSeries engine artifacts frame f = .ok series := by
        simpa [plainSeries, hexpression] using hplain
      apply le_counted _ (levelCount_expressionSeries hseries)
      rw [if_pos hexpression]
      exact expressionLevels_eq (sources_of_resolve hr hmem)
    · obtain ⟨source, hget, hle⟩ := levelCount_plainSeries hplain hcounts hexpression
      apply le_counted _ hle
      rw [if_neg hexpression, hsource, profileFrame_get?, hget]
      rfl
  unfold width
  rw [hseries]
  dsimp only
  split_ifs
  · exact hlevels
  · exact one_le_counted

/-! ## The gate and the fit -/

section Gate

variable (engine frame factors) (r : Resolution N height)

/-- The values that the sources of a factor have on the frame, two at least: of the first source, or
of the column of the factor's own slug, the values beside nulls; of a formula the combinations of its
sources, nulls among them. -/
def values (f : Factor) : ℕ :=
  max 2 (if f.type = .expression then ((f.source_columns.filterMap frame.get?).map fun s =>
      distinct s.cells + nullLevel s.cells).prod
    else ((frame.get? (f.source_columns.headD f.slug)).map fun s => distinct s.cells).getD 0)

def valuesFor (e : String × Column) : ℕ :=
  (makerIn (writers factors) e.1 e.2).elim 0 (values frame)

def levels (e : String × Column) : ℕ :=
  (r.column frame e.2).elim 0 fun s => if e.2 ∈ r.categorical then levelCount engine s else 2

/-- The levels of interactions and of bands with a null beyond the values of their sources. -/
def shortfall : ℕ :=
  (r.terms.entries.map fun e => if (makerIn (writers factors) e.1 e.2).any
    (fun f => decide (MayUndercount frame f)) then levels engine frame r e - valuesFor frame factors e
    else 0).sum

/-- The factors that make no term: operands, and those whose slug another one takes. -/
def termless : List Factor :=
  factors.diff (r.terms.entries.filterMap fun e => makerIn (writers factors) e.1 e.2)

/-- The values beyond the levels: of terms with fewer levels, and of factors without a term. -/
def surplus : ℕ :=
  (r.terms.entries.map fun e => valuesFor frame factors e - max 1 (levels engine frame r e)).sum +
    ((termless factors r).map fun f => values frame f - 1).sum

/-- The estimate is at least the fitted terms unless a factor is reported unbounded, and a fit that
passes the gate has the exposure per coefficient that was asked for. -/
structure GateHolds (profile : Option Profile) (columns : Dict (DesignColumn F height)) : Prop where
  bound : ∀ exposure_years limit least,
    (∀ slug, .unbounded slug ∉ (complexityOrRefuse factors profile exposure_years limit least).1) →
      fittedParameters columns ≤ estimatedParameters factors profile
  exposure : ∀ (exposure_years : ℚ≥0) limit (least : ℚ),
    (complexityOrRefuse factors profile (some exposure_years) limit (some least)).1 = [] →
      least ≤ exposure_years / fittedParameters columns

end Gate

theorem sum_filterMap {α β : Type} {g : α → Option β} {c : β → ℕ} (l : List α) :
    ((l.filterMap g).map c).sum = (l.map fun a => (g a).elim 0 c).sum := by
  induction l with
  | nil => rfl
  | cons a l ih =>
    rw [List.map_cons, List.sum_cons, ← ih]
    cases hg : g a with
    | none => rw [List.filterMap_cons_none hg, Option.elim_none, zero_add]
    | some b => rw [List.filterMap_cons_some hg, List.map_cons, List.sum_cons, Option.elim_some]

omit [LinearOrder F] [Zero F] [One F] in
theorem counted_eq {f : Factor} (h : ∀ c ∈ f.source_columns, (frame.get? c).isSome = true) :
    counted (profileFrame frame) f = values frame f - 1 := by
  unfold counted values
  dsimp only
  split_ifs with hexpression
  · rw [expressionLevels_eq h]
    dsimp only
    split_ifs <;> omega
  · rw [profileFrame_get?]
    cases frame.get? (f.source_columns.headD f.slug) with
    | none => rfl
    | some s =>
      simp only [Option.map_some, Option.getD_some]
      split_ifs <;> omega

omit [DecidableEq N] [LinearOrder F] [Zero F] [One F] in
theorem width_eq (e : String × Column) : width engine frame r e = levels engine frame r e - 1 := by
  unfold width levels
  cases r.column frame e.2 with
  | none => rfl
  | some s =>
    simp only [Option.elim_some]
    split_ifs <;> rfl

omit [DecidableEq N] [LinearOrder F] [Zero F] [One F] in
theorem sum_terms (count : Factor → ℕ) : (factors.map count).sum =
      (r.terms.entries.map fun e => (makerIn (writers factors) e.1 e.2).elim 0 count).sum +
        ((termless factors r).map count).sum := by
  have hnodup : (r.terms.entries.filterMap fun e =>
      makerIn (writers factors) e.1 e.2).Nodup := by
    apply List.Nodup.filterMap _ (List.Nodup.of_map _ r.terms.nodup)
    intro e e' f hf hf'
    obtain ⟨-, hslug, hcolumn⟩ := of_makerIn hf
    obtain ⟨-, hslug', hcolumn'⟩ := of_makerIn hf'
    exact Prod.ext (hslug.symm.trans hslug') (hcolumn.symm.trans hcolumn')
  have hsub : (r.terms.entries.filterMap fun e =>
      makerIn (writers factors) e.1 e.2) ⊆ factors := by
    intro f hf
    obtain ⟨e, -, hf⟩ := List.mem_filterMap.mp hf
    exact mem_writers.mp (of_makerIn hf).1
  have hperm := List.subperm_append_diff_self_of_count_le fun f _ =>
    (List.subperm_of_subset hnodup hsub).count_le f
  rw [← (hperm.map _).sum_eq, List.map_append, List.sum_append, sum_filterMap]
  rfl

theorem levels_add (hr : resolveFactorColumns engine artifacts frame factors = .ok r)
    (hsources : ∀ f ∈ factors, f.type ≠ .interaction → f.source_columns ≠ []) :
    (r.terms.entries.map fun e => levels engine frame r e - 1).sum +
        (r.terms.entries.map fun e => valuesFor frame factors e - max 1 (levels engine frame r e)).sum =
      (r.terms.entries.map fun e => (makerIn (writers factors) e.1 e.2).elim 0
        fun f => values frame f - 1).sum + shortfall engine frame factors r := by
  unfold shortfall
  rw [← List.sum_map_add, ← List.sum_map_add]
  congr 1
  apply List.map_congr_left
  intro e he
  obtain ⟨f, hf⟩ := Option.isSome_iff_exists.mp ((made_of_resolve hr).terms e he)
  have htwo : 2 ≤ values frame f := le_max_left ..
  rw [hf, Option.any_some, valuesFor, hf, Option.elim_some, Option.elim_some]
  by_cases hmay : MayUndercount frame f
  · rw [if_pos (decide_eq_true hmay)]
    omega
  · have hle := width_le_counted hr hsources hf hmay
    rw [width_eq, counted_eq (sources_of_resolve hr (mem_writers.mp (of_makerIn hf).1))] at hle
    rw [if_neg (by simpa using hmay)]
    omega

/-- The gate holds where interactions and bands with a null have no more levels beyond the values of
their sources than there are values beyond the levels elsewhere. -/
theorem gateHolds_iff (hr : resolveFactorColumns engine artifacts frame factors = .ok r)
    {columns : Dict (DesignColumn F height)} (hd : design engine frame exposure r = .ok columns)
    (hsources : ∀ f ∈ factors, f.type ≠ .interaction → f.source_columns ≠ []) :
    GateHolds factors (some (profileFrame frame)) columns ↔
      shortfall engine frame factors r ≤ surplus engine frame factors r := by
  have hfitted := fittedParameters_eq hr hd
  have hbound : fittedParameters columns ≤
      estimatedParameters factors (some (profileFrame frame)) ↔
        shortfall engine frame factors r ≤ surplus engine frame factors r := by
    have hadd := levels_add hr hsources
    have hsum : (factors.map fun f => values frame f - 1).sum =
        (r.terms.entries.map fun e => (makerIn (writers factors) e.1 e.2).elim 0
          fun f => values frame f - 1).sum +
            ((termless factors r).map fun f => values frame f - 1).sum := sum_terms _
    have hwidth : width engine frame r = fun e => levels engine frame r e - 1 := funext width_eq
    have hcounted : factors.map (counted (profileFrame frame)) =
        factors.map fun f => values frame f - 1 :=
      List.map_congr_left fun f hf => counted_eq (sources_of_resolve hr hf)
    rw [hfitted, hwidth, estimatedParameters, surplus, Option.getD_some, hcounted]
    omega
  constructor
  · intro h
    exact hbound.mp (h.bound none none none (by simp [complexityOrRefuse]))
  · intro h
    refine ⟨fun _ _ _ _ => hbound.mpr h, fun exposure_years limit least hproblems => ?_⟩
    have hthin : ¬ (exposure_years : ℚ) /
        estimatedParameters factors (some (profileFrame frame)) < least := by
      intro hlt
      simp [complexityOrRefuse, hlt] at hproblems
    have hle : (fittedParameters columns : ℚ) ≤
        estimatedParameters factors (some (profileFrame frame)) := by
      exact_mod_cast hbound.mpr h
    have hpos : (0 : ℚ) < fittedParameters columns := by
      rw [fittedParameters]
      positivity
    apply (not_lt.mp hthin).trans
    exact div_le_div_of_nonneg_left exposure_years.2 hpos hle

/-! ### Two models of one frame -/

/-- Two areas, each with three fuels. -/
def areasAndFuels : Frame ℕ 6 where
  entries := [("area", ⟨.levels, fun i => some (.text (if i.val < 3 then "north" else "south"))⟩),
    ("fuel", ⟨.levels, fun i => some (.text (["diesel", "electric", "petrol"].getD (i.val % 3) ""))⟩)]
  nodup := by decide

def textEngine : Engine ℕ ℚ := ⟨fun _ => "", fun n => n, fun _ _ _ => none, fun _ _ _ => false⟩

def noArtifacts : Artifacts ℚ := ⟨fun _ => none, fun _ => none⟩

def rowCount (rows : Fin 6 → Bool) : ℕ := (List.ofFn rows).countP id

theorem area_slug_ok : '[' ∉ "area".toList := by decide

def areaFactor : Factor :=
  { id := 1, slug := "area", type := .identity, source_columns := ["area"]
    slug_ok := area_slug_ok }

def fuelFactor : Factor :=
  { id := 2, slug := "fuel", type := .identity, source_columns := ["fuel"], slug_ok := by decide }

def areaByFuel : Factor :=
  { id := 3, slug := "area_fuel", type := .interaction, operand_factor_ids := [1, 2]
    slug_ok := by decide }

/-- What a fit of some factors spends on the frame. -/
def spends (factors : List Factor) : Except Refusal ℕ := do
  let r ← resolveFactorColumns textEngine noArtifacts areasAndFuels factors
  let columns ← design textEngine areasAndFuels rowCount r
  return fittedParameters columns

theorem of_spends {factors : List Factor} {n : ℕ} (h : spends factors = .ok n) :
    ∃ r columns, resolveFactorColumns textEngine noArtifacts areasAndFuels factors = .ok r ∧
      design textEngine areasAndFuels rowCount r = .ok columns ∧ fittedParameters columns = n := by
  obtain ⟨r, hr, h⟩ := bind_eq_ok.mp h
  obtain ⟨columns, hd, h⟩ := bind_eq_ok.mp h
  exact ⟨r, columns, hr, hd, pure_eq_ok.mp h⟩

/-- Two areas and three fuels by themselves spend what is counted for them. -/
theorem main_effects_counted : ∃ r columns,
    resolveFactorColumns textEngine noArtifacts areasAndFuels [areaFactor, fuelFactor] = .ok r ∧
    design textEngine areasAndFuels rowCount r = .ok columns ∧ fittedParameters columns = 4 ∧
    GateHolds [areaFactor, fuelFactor] (some (profileFrame areasAndFuels)) columns := by
  have hspends : spends [areaFactor, fuelFactor] = .ok 4 := by decide
  have hnone : (resolveFactorColumns textEngine noArtifacts areasAndFuels
      [areaFactor, fuelFactor]).map (shortfall textEngine areasAndFuels [areaFactor, fuelFactor]) =
        .ok 0 := by decide
  obtain ⟨r, columns, hr, hd, hfitted⟩ := of_spends hspends
  rw [hr] at hnone
  have hzero : shortfall textEngine areasAndFuels [areaFactor, fuelFactor] r = 0 :=
    Except.ok.inj hnone
  refine ⟨r, columns, hr, hd, hfitted, (gateHolds_iff hr hd (by decide)).mpr ?_⟩
  rw [hzero]
  exact Nat.zero_le _

/-- The cross of two areas and three fuels has six cells; the gate counts five parameters. -/
theorem cross_undercounted : ∃ r columns,
    resolveFactorColumns textEngine noArtifacts areasAndFuels
      [areaFactor, fuelFactor, areaByFuel] = .ok r ∧
    design textEngine areasAndFuels rowCount r = .ok columns ∧
    ¬ GateHolds [areaFactor, fuelFactor, areaByFuel] (some (profileFrame areasAndFuels)) columns := by
  have hspends : spends [areaFactor, fuelFactor, areaByFuel] = .ok 6 := by decide
  obtain ⟨r, columns, hr, hd, hfitted⟩ := of_spends hspends
  refine ⟨r, columns, hr, hd, fun h => ?_⟩
  have hbound := h.bound none none none (by simp [complexityOrRefuse])
  rw [hfitted] at hbound
  revert hbound
  decide

end GiPricing.Factors.Frames
