import GiPricing.Factors.Complexity
import GiPricing.Factors.Resolves
import GiPricing.Failure.Lists

/-! # The blocks of a design

Where the slugs of the factors differ, a design is made of one block of columns for each factor that
has a term, and the block is the factor's own whatever other factors there are.
-/

namespace GiPricing.Factors.Frames

open Failure Relational

variable {N F W : Type} [LinearOrder F] [Zero F] [One F] [LinearOrder W] {height : ℕ}

section Definitions

variable (engine : Engine N F) (artifacts : Artifacts F) (frame : Frame N height)
  (factors : List Factor) (exposure : (Fin height → Bool) → W)

def sideOf (id : UUID) : Option (Series N height) := (byId factors id).bind fun g =>
  if g.type = .interaction then none
  else (plainSeries engine artifacts frame g).toOption.filter fun s => s.kind = .levels

/-- The series of a factor. -/
def seriesOf (f : Factor) : Option (Series N height) :=
  if f.type = .interaction then
    (f.operand_factor_ids.mapM (sideOf engine artifacts frame factors)).map fun sides =>
      .ofTexts (crossed engine sides)
  else (plainSeries engine artifacts frame f).toOption

/-- The design columns of a factor over its series. -/
def columnsOf (slug : String) (s : Series N height) :
    Except Refusal (List (String × DesignColumn F height)) :=
  if s.kind = .levels then
    .ok ((baseFirst exposure (s.text engine)).tail.map fun level =>
      (dummyTerm slug level, indicator (s.text engine) level))
  else (require (s.number engine) (.castFailed slug)).map fun number => [(slug, number)]

def block (f : Factor) : List (String × DesignColumn F height) :=
  ((seriesOf engine artifacts frame factors f).bind fun s =>
    (columnsOf engine exposure f.slug s).toOption).getD []

end Definitions

variable {engine : Engine N F} {artifacts : Artifacts F} {frame : Frame N height}
  {factors : List Factor} {exposure : (Fin height → Bool) → W} {r : Resolution N height} {f : Factor}
  {s : Series N height}

/-! ## The series of the factors -/

theorem toOption_eq_some {α : Type} {x : Except Refusal α} {a : α} :
    x.toOption = some a ↔ x = .ok a := by
  cases x <;> simp [Except.toOption]

theorem sideOf_eq_some {id : UUID} : sideOf engine artifacts frame factors id = some s ↔
    Side engine artifacts frame factors id s := by
  unfold sideOf Side
  rw [Option.bind_eq_some_iff]
  refine exists_congr fun g => and_congr_right fun _ => ?_
  by_cases htype : g.type = .interaction
  · simp [htype]
  · simp [htype, Option.filter_eq_some_iff, toOption_eq_some]

theorem exists_seriesOf (hr : resolveFactorColumns engine artifacts frame factors = .ok r)
    (hf : f ∈ factors) : ∃ s, seriesOf engine artifacts frame factors f = some s := by
  obtain ⟨hplain, hcross⟩ := resolve_ok.mp ⟨r, hr⟩ f hf
  unfold seriesOf
  split_ifs with htype
  · have hsides : (f.operand_factor_ids.mapM (sideOf engine artifacts frame factors)).isSome = true := by
      rw [isSome_mapM]
      intro id hid
      obtain ⟨s, hs⟩ := hcross htype id hid
      rw [sideOf_eq_some.mpr hs]
      rfl
    obtain ⟨sides, hsides⟩ := Option.isSome_iff_exists.mp hsides
    exact ⟨_, by rw [hsides]; rfl⟩
  · obtain ⟨s, hs⟩ := hplain.2 htype
    exact ⟨s, toOption_eq_some.mpr hs⟩

theorem seriesOf_congr {others : List Factor} (h : f.type = .interaction →
      ∀ id ∈ f.operand_factor_ids, byId others id = byId factors id) :
    seriesOf engine artifacts frame others f = seriesOf engine artifacts frame factors f := by
  unfold seriesOf
  split_ifs with htype
  · congr 1
    have hids := h htype
    generalize f.operand_factor_ids = ids at hids
    induction ids with
    | nil => rfl
    | cons id ids ih =>
      have hside : sideOf engine artifacts frame others id =
          sideOf engine artifacts frame factors id := by
        unfold sideOf
        rw [hids id List.mem_cons_self]
      rw [List.mapM_cons, List.mapM_cons, hside, ih fun id hid => hids id (List.mem_cons_of_mem _ hid)]
  · rfl

theorem kind_of_cross (htype : f.type = .interaction)
    (h : seriesOf engine artifacts frame factors f = some s) : s.kind = .levels := by
  rw [seriesOf, if_pos htype] at h
  obtain ⟨sides, -, rfl⟩ := Option.map_eq_some_iff.mp h
  rfl

omit [LinearOrder F] [Zero F] [One F] in
theorem resolved_of_crossPass : ∀ {l : List Factor} {r r' : Resolution N height},
    l.foldlM (resolveCross engine factors) r = .ok r' → r'.resolved = r.resolved
  | [], r, r', h => by rw [pure_eq_ok.mp h]
  | f :: l, r, r', h => by
    obtain ⟨next, hnext, hrest⟩ := foldlM_cons_eq_ok.mp h
    rw [resolved_of_crossPass hrest]
    unfold resolveCross at hnext
    split_ifs at hnext
    · obtain ⟨sides, -, hnext⟩ := bind_eq_ok.mp hnext
      rw [← pure_eq_ok.mp hnext]
      rfl
    · rw [← Except.ok.inj hnext]

theorem seriesOf_of_makes (hr : resolveFactorColumns engine artifacts frame factors = .ok r)
    (h : Makes engine artifacts frame factors r.resolved f s) :
    seriesOf engine artifacts frame factors f = some s := by
  obtain ⟨plain, hplain, hcross⟩ := bind_eq_ok.mp hr
  rw [resolved_of_crossPass hcross] at h
  unfold Makes at h
  unfold seriesOf
  split_ifs at h ⊢ with htype
  · obtain ⟨sides, hsides, rfl⟩ := h
    have hall := mapM_eq_ok.mp hsides
    have hsome : f.operand_factor_ids.mapM (sideOf engine artifacts frame factors) = some sides := by
      clear hsides
      generalize f.operand_factor_ids = ids at hall
      induction hall with
      | nil => rfl
      | cons hside _ ih =>
        rw [List.mapM_cons, sideOf_eq_some.mpr ((operandSeries_eq_ok hplain).mp hside), ih]
        rfl
    rw [hsome]
    rfl
  · exact toOption_eq_some.mpr h

/-! ## The terms of a resolution -/

theorem entries_termsOf {l : List Factor} (h : (l.map Factor.slug).Nodup) :
    (termsOf l .empty).entries = l.map fun f => (f.slug, f.column) := by
  have hentries := entries_foldl_insert (l.map fun f => (f.slug, f.column)) .empty (by
    have hkeys : (Dict.empty : Dict Column).keys = [] := rfl
    rw [hkeys, List.nil_append, List.map_map]
    exact h)
  rw [List.foldl_map] at hentries
  exact hentries

theorem eq_of_slug (h : (factors.map Factor.slug).Nodup) {g : Factor} (hf : f ∈ factors)
    (hg : g ∈ factors) (hslug : f.slug = g.slug) : f = g :=
  List.inj_on_of_nodup_map h hf hg hslug

theorem nodup_termFactors (h : (factors.map Factor.slug).Nodup) :
    ((termFactors factors).map Factor.slug).Nodup := by
  have hfactors := h.of_map
  have hinj : ∀ f ∈ termFactors factors, ∀ g ∈ termFactors factors, f.slug = g.slug → f = g :=
    fun f hf g hg => eq_of_slug h (mem_termFactors.mp hf).1 (mem_termFactors.mp hg).1
  refine List.Nodup.map_on hinj ?_
  refine List.nodup_append.mpr ⟨hfactors.filter _, hfactors.filter _, ?_⟩
  rintro f hf _ hg rfl
  rw [List.mem_filter, decide_eq_true_eq] at hf hg
  exact hf.2.1 hg.2

section Resolved

variable (hr : resolveFactorColumns engine artifacts frame factors = .ok r)
  (hslugs : (factors.map Factor.slug).Nodup)

include hr hslugs

theorem entries_of_resolve :
    r.terms.entries = (termFactors factors).map fun f => (f.slug, f.column) := by
  rw [terms_of_resolve hr, entries_termsOf (nodup_termFactors hslugs)]

/-- The column of a factor has its series. -/
theorem column_of_factor (hf : f ∈ factors)
    (hs : seriesOf engine artifacts frame factors f = some s) :
    r.column frame f.column = some s := by
  have hmaker : makerIn (writers factors) f.slug f.column = some f := by
    have hsome : (makerIn (writers factors) f.slug f.column).isSome = true :=
      List.find?_isSome.mpr ⟨f, List.mem_reverse.mpr (mem_writers.mpr hf), by simp⟩
    obtain ⟨g, hg⟩ := Option.isSome_iff_exists.mp hsome
    obtain ⟨hmem, hslug, -⟩ := of_makerIn hg
    rw [hg, eq_of_slug hslugs (mem_writers.mp hmem) hf hslug]
  obtain ⟨series, hseries, hmakes⟩ := (made_of_resolve hr).column _ _ f hmaker
  rw [hseries, ← seriesOf_of_makes hr hmakes, hs]

end Resolved

/-! ### The columns of levels -/

theorem categorical_of_plainPass {c : Column} : ∀ {l : List Factor} {r r' : Resolution N height},
    l.foldlM (resolvePlain engine artifacts frame factors) r = .ok r' →
    (c ∈ r'.categorical ↔ c ∈ r.categorical ∨ ∃ g ∈ l, (g.type ≠ .interaction ∧
      (operandIds factors).contains g.id = false) ∧ g.column = c ∧
        ∃ s, plainSeries engine artifacts frame g = .ok s ∧ s.kind = .levels)
  | [], r, r', h => by
    obtain rfl := pure_eq_ok.mp h
    simp
  | f :: l, r, r', h => by
    obtain ⟨next, hnext, hrest⟩ := foldlM_cons_eq_ok.mp h
    obtain ⟨_, -, hnext⟩ := bind_eq_ok.mp hnext
    rw [categorical_of_plainPass hrest, List.exists_mem_cons_iff, ← or_assoc]
    apply or_congr_left
    split_ifs at hnext with htype
    · obtain rfl := pure_eq_ok.mp hnext
      simp [htype]
    · obtain ⟨series, hseries, hnext⟩ := bind_eq_ok.mp hnext
      obtain rfl := pure_eq_ok.mp hnext
      by_cases hop : (operandIds factors).contains f.id
      · rw [Resolution.withSeries, if_pos hop]
        simp only [hop]
        simp
      · rw [Resolution.withSeries, if_neg hop]
        have hfree : (operandIds factors).contains f.id = false := by simpa using hop
        simp only [Resolution.withTerm, hfree, hseries, Except.ok.injEq, exists_eq_left']
        by_cases hkind : series.kind = .levels
        · simp [hkind, htype, or_comm, eq_comm]
        · simp [hkind]

omit [LinearOrder F] [Zero F] [One F] in
theorem categorical_of_crossPass {c : Column} : ∀ {l : List Factor} {r r' : Resolution N height},
    l.foldlM (resolveCross engine factors) r = .ok r' →
    (c ∈ r'.categorical ↔ c ∈ r.categorical ∨ ∃ g ∈ l, g.type = .interaction ∧ g.column = c)
  | [], r, r', h => by
    obtain rfl := pure_eq_ok.mp h
    simp
  | f :: l, r, r', h => by
    obtain ⟨next, hnext, hrest⟩ := foldlM_cons_eq_ok.mp h
    rw [categorical_of_crossPass hrest, List.exists_mem_cons_iff, ← or_assoc]
    apply or_congr_left
    unfold resolveCross at hnext
    split_ifs at hnext with htype
    · obtain ⟨sides, -, hnext⟩ := bind_eq_ok.mp hnext
      obtain rfl := pure_eq_ok.mp hnext
      simp [Resolution.withTerm, htype, or_comm, eq_comm]
    · obtain rfl := Except.ok.inj hnext
      simp [htype]

theorem mem_categorical (hr : resolveFactorColumns engine artifacts frame factors = .ok r)
    {c : Column} : c ∈ r.categorical ↔ ∃ g ∈ termFactors factors, g.column = c ∧
      ∃ s, seriesOf engine artifacts frame factors g = some s ∧ s.kind = .levels := by
  obtain ⟨plain, hplain, hcross⟩ := bind_eq_ok.mp hr
  rw [categorical_of_crossPass hcross, categorical_of_plainPass hplain]
  have hnil : ¬ c ∈ ({} : Resolution N height).categorical := List.not_mem_nil
  rw [or_iff_right hnil]
  constructor
  · rintro (⟨g, hg, hterm, hcolumn, s, hs, hkind⟩ | ⟨g, hg, htype, hcolumn⟩)
    · refine ⟨g, mem_termFactors.mpr ⟨hg, Or.inr hterm.2⟩, hcolumn, s, ?_, hkind⟩
      rw [seriesOf, if_neg hterm.1]
      exact toOption_eq_some.mpr hs
    · obtain ⟨s, hs⟩ := exists_seriesOf hr hg
      exact ⟨g, mem_termFactors.mpr ⟨hg, Or.inl htype⟩, hcolumn, s, hs, kind_of_cross htype hs⟩
  · rintro ⟨g, hg, hcolumn, s, hs, hkind⟩
    obtain ⟨hmem, hterm⟩ := mem_termFactors.mp hg
    by_cases htype : g.type = .interaction
    · exact Or.inr ⟨g, hmem, htype, hcolumn⟩
    · rw [seriesOf, if_neg htype] at hs
      exact Or.inl ⟨g, hmem, ⟨htype, hterm.resolve_left htype⟩, hcolumn, s, toOption_eq_some.mp hs,
        hkind⟩

section Resolved

variable (hr : resolveFactorColumns engine artifacts frame factors = .ok r)
  (hslugs : (factors.map Factor.slug).Nodup)

include hr hslugs

theorem categorical_iff (hf : f ∈ termFactors factors)
    (hs : seriesOf engine artifacts frame factors f = some s) :
    f.column ∈ r.categorical ↔ s.kind = .levels := by
  rw [mem_categorical hr]
  constructor
  · rintro ⟨g, hg, hcolumn, s', hs', hkind⟩
    have hcolumns := column_of_factor hr hslugs (mem_termFactors.mp hg).1 hs'
    rw [hcolumn, column_of_factor hr hslugs (mem_termFactors.mp hf).1 hs] at hcolumns
    rw [Option.some.inj hcolumns]
    exact hkind
  · exact fun hkind => ⟨f, hf, rfl, s, hs, hkind⟩

theorem termColumns_eq (hf : f ∈ termFactors factors)
    (hs : seriesOf engine artifacts frame factors f = some s) :
    termColumns engine frame exposure r f.slug f.column = columnsOf engine exposure f.slug s := by
  rw [termColumns, column_of_factor hr hslugs (mem_termFactors.mp hf).1 hs]
  unfold columnsOf
  by_cases hkind : s.kind = .levels
  · rw [if_pos hkind]
    exact if_pos ((categorical_iff hr hslugs hf hs).mpr hkind)
  · rw [if_neg hkind]
    refine (if_neg (mt (categorical_iff hr hslugs hf hs).mp hkind)).trans ?_
    cases s.number engine <;> rfl

end Resolved

/-! ## The design -/

theorem foldlM_map_ok {α β σ : Type} {g : α → Except Refusal β} {step : σ → β → σ} :
    ∀ {l : List α} {acc : σ}, (∃ out, l.foldlM (fun acc a => (g a).map (step acc)) acc = .ok out) ↔
      ∀ a ∈ l, ∃ b, g a = .ok b
  | [], acc => by simp [pure, Except.pure]
  | a :: l, acc => by
    rw [List.forall_mem_cons]
    constructor
    · rintro ⟨out, h⟩
      obtain ⟨next, hnext, hrest⟩ := foldlM_cons_eq_ok.mp h
      obtain ⟨b, hb, -⟩ := map_eq_ok.mp hnext
      exact ⟨⟨b, hb⟩, foldlM_map_ok.mp ⟨out, hrest⟩⟩
    · rintro ⟨⟨b, hb⟩, hl⟩
      obtain ⟨out, hrest⟩ := foldlM_map_ok.mpr hl
      exact ⟨out, foldlM_cons_eq_ok.mpr ⟨step acc b, map_eq_ok.mpr ⟨b, hb, rfl⟩, hrest⟩⟩

theorem eq_map_of_forall₂ {α β : Type} {R : α → β → Prop} {g : α → β} {l : List α} {m : List β}
    (h : List.Forall₂ R l m) (hg : ∀ a ∈ l, ∀ b, R a b → b = g a) : m = l.map g := by
  induction h with
  | nil => rfl
  | @cons a b l m hab _ ih =>
    rw [List.map_cons, ← hg a List.mem_cons_self b hab,
      ← ih fun a ha => hg a (List.mem_cons_of_mem _ ha)]

variable (engine artifacts frame factors exposure) in
/-- A factor whose series can be written into a design. -/
def Writable (f : Factor) : Prop := ∃ s columns,
  seriesOf engine artifacts frame factors f = some s ∧ columnsOf engine exposure f.slug s = .ok columns

theorem block_eq {columns : List (String × DesignColumn F height)}
    (hs : seriesOf engine artifacts frame factors f = some s)
    (h : columnsOf engine exposure f.slug s = .ok columns) :
    block engine artifacts frame factors exposure f = columns := by
  rw [block, hs, Option.bind_some, h]
  rfl

theorem writable_of_levels (hs : seriesOf engine artifacts frame factors f = some s)
    (hkind : s.kind = .levels) : Writable engine artifacts frame factors exposure f :=
  ⟨s, _, hs, if_pos hkind⟩

section Resolved

variable (hr : resolveFactorColumns engine artifacts frame factors = .ok r)
  (hslugs : (factors.map Factor.slug).Nodup)

include hr hslugs

theorem design_ok : (∃ columns, design engine frame exposure r = .ok columns) ↔
    ∀ f ∈ termFactors factors, Writable engine artifacts frame factors exposure f := by
  unfold design
  rw [foldlM_map_ok, entries_of_resolve hr hslugs, List.forall_mem_map]
  refine forall₂_congr fun f hf => ?_
  obtain ⟨s, hs⟩ := exists_seriesOf hr (mem_termFactors.mp hf).1
  rw [termColumns_eq hr hslugs hf hs]
  constructor
  · rintro ⟨columns, hcolumns⟩
    exact ⟨s, columns, hs, hcolumns⟩
  · rintro ⟨s', columns, hs', hcolumns⟩
    obtain rfl := Option.some.inj (hs.symm.trans hs')
    exact ⟨columns, hcolumns⟩

/-- A design is the blocks of the factors that have a term. -/
theorem entries_eq_blocks {columns : Dict (DesignColumn F height)}
    (hd : design engine frame exposure r = .ok columns) : columns.entries =
      (termFactors factors).flatMap (block engine artifacts frame factors exposure) := by
  have hterms := entries_of_resolve hr hslugs
  have hslug : ∀ e ∈ r.terms.entries, '[' ∉ e.1.toList := by
    intro e he
    rw [hterms] at he
    obtain ⟨f, -, rfl⟩ := List.mem_map.mp he
    exact f.slug_ok
  obtain ⟨blocks, hblocks, hentries⟩ :=
    entries_of_design r.terms.nodup hslug (by intro k hk; cases hk) hd
  rw [hterms, List.forall₂_map_left_iff] at hblocks
  have hnil : (Dict.empty : Dict (DesignColumn F height)).entries = [] := rfl
  rw [hentries, hnil, List.nil_append, List.flatMap_def]
  congr 1
  refine eq_map_of_forall₂ hblocks fun f hf columns hcolumns => ?_
  obtain ⟨s, hs⟩ := exists_seriesOf hr (mem_termFactors.mp hf).1
  rw [termColumns_eq hr hslugs hf hs] at hcolumns
  exact (block_eq hs hcolumns).symm

end Resolved

theorem termSlug_of_block {e : String × DesignColumn F height}
    (he : e ∈ block engine artifacts frame factors exposure f) : termSlug e.1 = f.slug := by
  unfold block at he
  cases hs : seriesOf engine artifacts frame factors f with
  | none =>
    rw [hs] at he
    cases he
  | some s =>
    rw [hs, Option.bind_some] at he
    unfold columnsOf at he
    split_ifs at he with hkind
    · obtain ⟨level, -, rfl⟩ := List.mem_map.mp he
      exact termSlug_dummy f.slug_ok level
    · cases hn : s.number engine with
      | none =>
        rw [hn] at he
        cases he
      | some n =>
        rw [hn] at he
        obtain rfl := List.mem_singleton.mp he
        exact termSlug_of_plain f.slug_ok

end GiPricing.Factors.Frames
