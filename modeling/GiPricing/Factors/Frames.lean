import GiPricing.Factors.Design
import GiPricing.Modelling.Bandings

/-! # Factors over a frame

The resolution of a model's factors against the columns of a frame, and the design that a fit builds
of it. What a frame computes of one column is computed row by row.
-/

namespace GiPricing.Factors.Frames

open Failure Bandings

inductive Kind | levels | numeric | other
  deriving DecidableEq

inductive Cell (N : Type)
  | number (x : N)
  | bool (b : Bool)
  | text (s : String)
  deriving DecidableEq

structure Series (N : Type) (height : ℕ) where
  kind : Kind
  cells : Fin height → Option (Cell N)

abbrev Frame (N : Type) (height : ℕ) := Dict (Series N height)

inductive UnseenLevelBehaviour | error | mapToDefault | mapToBase
  deriving DecidableEq

structure Grouping where
  column : String
  mapping : Dict String
  unseen_level_behaviour : UnseenLevelBehaviour
  default_target_level : Option String

/-- A banding with what it is cut over: a column, or the text of a formula. -/
structure PinnedBanding (F : Type) [LinearOrder F] where
  column : Option String
  source_expression : Option String
  banding : Banding F

structure Artifacts (F : Type) [LinearOrder F] where
  bandings : UUID → Option (PinnedBanding F)
  groupings : UUID → Option Grouping

/-- What a frame computes: a number as text and as a float, and a formula over some columns by their
types, which is refused or has a type and a value on each row. -/
structure Engine (N F : Type) where
  string : N → String
  float : N → F
  formula : String → List String → List Kind → Option (Kind × (List (Option (Cell N)) → Option (Cell N)))
  sameFormula : String → String → List String → Bool

inductive Refusal
  | prohibited (slug : String)
  | intent (slug : String)
  | missing (slug : String)
  | notResolved (slug : String)
  | artifact (slug : String)
  | transformation (slug : String)
  | operand (slug : String)
  | castFailed (slug : String)
  | columnNotFound (slug : String)
  | unresolvedTerm (term : String)
  deriving DecidableEq

variable {N F : Type} [LinearOrder F] [Zero F] [One F] {height : ℕ}

def Cell.string (engine : Engine N F) : Cell N → String
  | number x => engine.string x
  | bool b => if b then "true" else "false"
  | text s => s

/-- A cell as a float; a text is none. -/
def Cell.float (engine : Engine N F) : Cell N → Option F
  | number x => some (engine.float x)
  | bool b => some (if b then 1 else 0)
  | text _ => none

namespace Series

/-- `cast(pl.String)` -/
def text (engine : Engine N F) (s : Series N height) : Fin height → Option String :=
  fun i => (s.cells i).map (Cell.string engine)

/-- `cast(pl.Float64)`, which fails on a text. -/
def number (engine : Engine N F) (s : Series N height) : Option (DesignColumn F height) :=
  if ∀ i, ∀ c ∈ s.cells i, (Cell.float engine c).isSome = true then
    some fun i => (s.cells i).bind (Cell.float engine)
  else none

def hasNull (s : Series N height) : Prop := ∃ i, s.cells i = none

instance (s : Series N height) : Decidable s.hasNull := inferInstanceAs (Decidable (∃ _, _))

def ofTexts (texts : Fin height → Option String) : Series N height :=
  ⟨.levels, fun i => (texts i).map .text⟩

end Series

section Resolve

variable (engine : Engine N F) (artifacts : Artifacts F) (frame : Frame N height)
  (factors : List Factor)

/-! ## Transformations -/

/-- `apply_banding` on a column. -/
def bandSeries (slug : String) (b : Banding F) (s : Series N height) :
    Except Refusal (Series N height) :=
  match b.applyBanding (Cell.float engine) (List.ofFn s.cells) with
  | .error _ => .error (.transformation slug)
  | .ok out => .ok (.ofTexts fun i => out[i.val]?)

/-- The level that an unseen one is mapped to. -/
def Grouping.fallback (g : Grouping) : Option String := match g.unseen_level_behaviour with
  | .error => none
  | .mapToDefault => g.default_target_level
  | .mapToBase => g.mapping.values.head?

def Grouping.target (g : Grouping) (level : String) : Option String :=
  (g.mapping.get? level).or g.fallback

/-- `apply_grouping`: a null is refused, and an unseen level without a fallback. -/
def groupSeries (slug : String) (g : Grouping) (s : Series N height) :
    Except Refusal (Series N height) :=
  if ∀ i, ∃ c ∈ s.cells i, (g.target (Cell.string engine c)).isSome = true then
    .ok (.ofTexts fun i => (s.text engine i).bind g.target)
  else .error (.transformation slug)

/-- `_expression_series` -/
def expressionSeries (f : Factor) : Except Refusal (Series N height) := do
  let expression ← require f.expression (.transformation f.slug)
  let sources := f.source_columns.filterMap frame.get?
  let (kind, value) ← require (engine.formula expression f.source_columns (sources.map Series.kind))
    (.transformation f.slug)
  let result : Series N height := ⟨kind, fun i => value (sources.map fun s => s.cells i)⟩
  match f.banding_id with
  | none => do
    ensure (kind ≠ .numeric) (.transformation f.slug)
    return result
  | some id => do
    ensure (kind = .numeric) (.transformation f.slug)
    let pinned ← require (artifacts.bandings id) (.artifact f.slug)
    ensure (pinned.source_expression.any fun cut =>
      engine.sameFormula cut expression f.source_columns) (.artifact f.slug)
    bandSeries engine f.slug pinned.banding result

/-- The series of a factor that is not an interaction. -/
def plainSeries (f : Factor) : Except Refusal (Series N height) := match f.type with
  | .expression => expressionSeries engine artifacts frame f
  | .identity => require (frame.get? f.source) (.missing f.slug)
  | .banding => do
    let pinned ← require (f.banding_id.bind artifacts.bandings) (.artifact f.slug)
    ensure (pinned.column = some f.source) (.artifact f.slug)
    let series ← require (frame.get? f.source) (.missing f.slug)
    bandSeries engine f.slug pinned.banding series
  | .grouping => do
    let grouping ← require (f.grouping_id.bind artifacts.groupings) (.artifact f.slug)
    ensure (grouping.column = f.source) (.artifact f.slug)
    let series ← require (frame.get? f.source) (.missing f.slug)
    groupSeries engine f.slug grouping series
  | .interaction | .spline | .polynomial | .offset => .error (.notResolved f.slug)

/-! ## The resolution -/

/-- What resolving factors adds to a frame, by slug, the column that each term reads, the columns of
levels, and the series by the ids of the factors. -/
structure Resolution (N : Type) (height : ℕ) where
  produced : Dict (Series N height) := .empty
  terms : Dict Column := .empty
  categorical : List Column := []
  resolved : List (UUID × Series N height) := []

/-- The resolved column: the produced one, else the frame's own, which is taken to have no column
under the name of a produced one. -/
def Resolution.column (r : Resolution N height) : Column → Option (Series N height)
  | .source name => frame.get? name
  | .resolved slug => r.produced.get? slug

/-- What is refused of a factor before it is resolved. -/
def checkFactor (f : Factor) : Except Refusal Unit := do
  ensure (f.prohibited = false) (.prohibited f.slug)
  ensure (f.intent ≠ .offset ∧ f.intent ≠ .diagnostic) (.intent f.slug)
  ensure (∀ c ∈ f.source_columns, (frame.get? c).isSome = true) (.missing f.slug)

/-- A term of a factor over a series. -/
def Resolution.withTerm (r : Resolution N height) (f : Factor) (kind : Kind) :
    Resolution N height :=
  { r with
    terms := r.terms.insert f.slug f.column
    categorical := if kind = .levels then f.column :: r.categorical else r.categorical }

/-- The series of a factor, which is a term of its own unless some interaction crosses it. -/
def Resolution.withSeries (r : Resolution N height) (f : Factor) (series : Series N height) :
    Resolution N height :=
  let added := { r with
    produced := if f.type = .identity then r.produced else r.produced.insert f.slug series
    resolved := (f.id, series) :: r.resolved }
  if (operandIds factors).contains f.id then added else added.withTerm f series.kind

/-- The first pass: the factors that are not interactions. -/
def resolvePlain (r : Resolution N height) (f : Factor) : Except Refusal (Resolution N height) := do
  checkFactor frame f
  if f.type = .interaction then return r
  else do
    let series ← plainSeries engine artifacts frame f
    return r.withSeries factors f series

/-- One side of a cross. -/
def operandSeries (resolved : List (UUID × Series N height)) (f : Factor) (id : UUID) :
    Except Refusal (Series N height) := do
  let operand ← require (factors.reverse.find? fun g => g.id = id) (.operand f.slug)
  ensure (operand.type ≠ .interaction) (.operand f.slug)
  let series ← require (resolved.lookup id) (.operand f.slug)
  ensure (series.kind = .levels) (.operand f.slug)
  return series

/-- The cross of some columns: a null on one side leaves a null. -/
def crossed (sides : List (Series N height)) (i : Fin height) : Option String :=
  (sides.mapM fun s : Series N height => s.text engine i).map crossSeparator.intercalate

/-- The second pass: an interaction is the cross of the levels of its operands. -/
def resolveCross (r : Resolution N height) (f : Factor) : Except Refusal (Resolution N height) :=
  if f.type = .interaction then do
    let sides ← f.operand_factor_ids.mapM (operandSeries factors r.resolved f)
    return { r with produced := r.produced.insert f.slug (.ofTexts (crossed engine sides)) }.withTerm
      f .levels
  else .ok r

/-- `resolve_factor_columns` -/
def resolveFactorColumns : Except Refusal (Resolution N height) := do
  let plain ← factors.foldlM (resolvePlain engine artifacts frame factors) {}
  factors.foldlM (resolveCross engine factors) plain

/-! ## The design -/

variable {W : Type} [LinearOrder W] (exposure : (Fin height → Bool) → W)

/-- The design columns of one term: its levels without the base, or its numbers. -/
def termColumns (r : Resolution N height) (slug : String) (column : Column) :
    Except Refusal (List (String × DesignColumn F height)) := do
  let series ← require (r.column frame column) (.columnNotFound slug)
  if column ∈ r.categorical then
    return (baseFirst exposure (series.text engine)).tail.map fun level =>
      (dummyTerm slug level, indicator (series.text engine) level)
  else do
    let number ← require (series.number engine) (.castFailed slug)
    return [(slug, number)]

/-- `_design` -/
def design (r : Resolution N height) : Except Refusal (Dict (DesignColumn F height)) :=
  r.terms.entries.foldlM (fun columns e =>
    (termColumns engine frame exposure r e.1 e.2).map fun written =>
      written.foldl (fun columns c => columns.insert c.1 c.2) columns) .empty

end Resolve

/-! ## The factor that made a column -/

def writers (factors : List Factor) : List Factor :=
  (factors.filter fun f => f.type ≠ .interaction) ++ factors.filter fun f => f.type = .interaction

def makerIn (written : List Factor) (slug : String) (column : Column) : Option Factor :=
  written.reverse.find? fun f => f.slug = slug ∧ f.column = column

theorem makerIn_append {written : List Factor} {f : Factor} {slug : String} {column : Column} :
    makerIn (written ++ [f]) slug column =
      if f.slug = slug ∧ f.column = column then some f else makerIn written slug column := by
  unfold makerIn
  rw [List.reverse_append, List.reverse_singleton, List.singleton_append, List.find?_cons]
  by_cases h : f.slug = slug ∧ f.column = column <;> simp [h]

theorem of_makerIn {written : List Factor} {f : Factor} {slug : String} {column : Column}
    (h : makerIn written slug column = some f) :
    f ∈ written ∧ f.slug = slug ∧ f.column = column := by
  have hmem := List.mem_of_find?_eq_some h
  have hprop := List.find?_some h
  exact ⟨List.mem_reverse.mp hmem, by simpa using hprop⟩

theorem mem_writers {factors : List Factor} {f : Factor} : f ∈ writers factors ↔ f ∈ factors := by
  simp only [writers, List.mem_append, List.mem_filter, decide_eq_true_eq]
  tauto

theorem column_eq_resolved {f : Factor} {slug : String} (h : f.column = .resolved slug) :
    f.type ≠ .identity ∧ f.slug = slug := by
  unfold Factor.column at h
  split_ifs at h with hid
  exact ⟨hid, by simpa using h⟩

section Made

variable {engine : Engine N F} {artifacts : Artifacts F} {frame : Frame N height}
  {factors : List Factor}

variable (engine factors) in
/-- The series of an interaction: the cross of the series of its operands. -/
def Crossed (resolved : List (UUID × Series N height)) (f : Factor) (series : Series N height) :
    Prop :=
  ∃ sides, f.operand_factor_ids.mapM (operandSeries factors resolved f) = .ok sides ∧
    series = .ofTexts (crossed engine sides)

variable (engine artifacts frame factors) in
/-- The series that a factor makes of the frame. -/
def Makes (resolved : List (UUID × Series N height)) (f : Factor) (series : Series N height) : Prop :=
  if f.type = .interaction then Crossed engine factors resolved f series
  else plainSeries engine artifacts frame f = .ok series

variable (engine artifacts frame factors) in
/-- After some factors, each column holds the series of the last of them that writes it, and each
term reads a column of one of them. -/
structure Made (resolved : List (UUID × Series N height)) (r : Resolution N height)
    (written : List Factor) : Prop where
  column : ∀ slug c f, makerIn written slug c = some f → ∃ series, r.column frame c = some series ∧
    Makes engine artifacts frame factors resolved f series
  terms : ∀ e ∈ r.terms.entries, (makerIn written e.1 e.2).isSome = true

/-- Writing the series of one more factor. -/
theorem Made.write {resolved : List (UUID × Series N height)} {r r' : Resolution N height}
    {written : List Factor} {f : Factor} (series : Series N height)
    (h : Made engine artifacts frame factors resolved r written)
    (hproduced : r'.produced = if f.type = .identity then r.produced else
      r.produced.insert f.slug series)
    (hsource : f.type = .identity → frame.get? f.source = some series)
    (hmakes : Makes engine artifacts frame factors resolved f series)
    (hterms : ∀ e ∈ r'.terms.entries, e ∈ r.terms.entries ∨ e = (f.slug, f.column)) :
    Made engine artifacts frame factors resolved r' (written ++ [f]) := by
  constructor
  · intro slug c g hg
    rw [makerIn_append] at hg
    split_ifs at hg with hf
    · obtain rfl := Option.some.inj hg
      obtain ⟨-, rfl⟩ := hf
      refine ⟨series, ?_, hmakes⟩
      unfold Factor.column
      split_ifs with hid
      · exact hsource hid
      · change r'.produced.get? f.slug = some series
        rw [hproduced, if_neg hid, Dict.get?_insert, if_pos rfl]
    · obtain ⟨s, hs, hmade⟩ := h.column slug c g hg
      refine ⟨s, ?_, hmade⟩
      cases c with
      | source name => exact hs
      | resolved k =>
        change r'.produced.get? k = some s
        rw [hproduced]
        split_ifs with hid
        · exact hs
        · rw [Dict.get?_insert, if_neg]
          · exact hs
          · rintro rfl
            -- The same slug would make the new factor the maker.
            obtain ⟨-, hslug, hcolumn⟩ := of_makerIn hg
            obtain ⟨-, hk⟩ := column_eq_resolved hcolumn
            apply hf
            rw [← hslug, hk]
            exact ⟨rfl, if_neg hid⟩
  · intro e he
    rw [makerIn_append]
    split_ifs with hf
    · rfl
    · rcases hterms e he with hold | rfl
      · exact h.terms e hold
      · exact absurd ⟨rfl, rfl⟩ hf

theorem mem_insert_entries {α : Type} {d : Dict α} {k : String} {v : α} {e : String × α}
    (h : e ∈ (d.insert k v).entries) : e ∈ d.entries ∨ e = (k, v) := by
  have hget := (Dict.get?_eq_some _).mpr h
  rw [Dict.get?_insert] at hget
  split_ifs at hget with hk
  · exact Or.inr (Prod.ext hk (Option.some.inj hget).symm)
  · exact Or.inl ((Dict.get?_eq_some _).mp hget)

theorem Made.plain {resolved : List (UUID × Series N height)} : ∀ {l : List Factor}
    {r r' : Resolution N height} {written : List Factor},
    Made engine artifacts frame factors resolved r written →
    l.foldlM (resolvePlain engine artifacts frame factors) r = .ok r' →
    Made engine artifacts frame factors resolved r'
      (written ++ l.filter fun f => f.type ≠ .interaction)
  | [], r, r', written, h, hr => by
    obtain rfl := pure_eq_ok.mp hr
    simpa using h
  | f :: l, r, r', written, h, hr => by
    obtain ⟨next, hnext, hrest⟩ := foldlM_cons_eq_ok.mp hr
    obtain ⟨_, -, hnext⟩ := bind_eq_ok.mp hnext
    split_ifs at hnext with hf
    · obtain rfl := pure_eq_ok.mp hnext
      rw [List.filter_cons_of_neg (by simpa using hf)]
      exact Made.plain h hrest
    · obtain ⟨series, hseries, hnext⟩ := bind_eq_ok.mp hnext
      obtain rfl := pure_eq_ok.mp hnext
      rw [List.filter_cons_of_pos (by simpa using hf), List.append_cons]
      apply Made.plain _ hrest
      apply h.write series
      · by_cases hop : (operandIds factors).contains f.id
        · rw [Resolution.withSeries, if_pos hop]
        · rw [Resolution.withSeries, if_neg hop]
          rfl
      · intro hid
        have hsource : require (frame.get? f.source) (Refusal.missing f.slug) = .ok series := by
          simpa [plainSeries, hid] using hseries
        exact require_eq_ok.mp hsource
      · rw [Makes, if_neg hf]
        exact hseries
      · intro e he
        by_cases hop : (operandIds factors).contains f.id
        · rw [Resolution.withSeries, if_pos hop] at he
          exact Or.inl he
        · rw [Resolution.withSeries, if_neg hop] at he
          exact mem_insert_entries he

theorem Made.cross : ∀ {l : List Factor} {r r' : Resolution N height} {written : List Factor},
    Made engine artifacts frame factors r.resolved r written →
    l.foldlM (resolveCross engine factors) r = .ok r' →
    r'.resolved = r.resolved ∧ Made engine artifacts frame factors r.resolved r'
      (written ++ l.filter fun f => f.type = .interaction)
  | [], r, r', written, h, hr => by
    obtain rfl := pure_eq_ok.mp hr
    exact ⟨rfl, by simpa using h⟩
  | f :: l, r, r', written, h, hr => by
    obtain ⟨next, hnext, hrest⟩ := foldlM_cons_eq_ok.mp hr
    unfold resolveCross at hnext
    split_ifs at hnext with hf
    · obtain ⟨sides, hsides, hnext⟩ := bind_eq_ok.mp hnext
      obtain rfl := pure_eq_ok.mp hnext
      rw [List.filter_cons_of_pos (by simpa using hf), List.append_cons]
      have hid : f.type ≠ .identity := by rw [hf]; decide
      apply Made.cross _ hrest
      apply h.write (.ofTexts (crossed engine sides))
      · rw [if_neg hid]
        rfl
      · exact fun h => absurd h hid
      · rw [Makes, if_pos hf]
        exact ⟨sides, hsides, rfl⟩
      · exact fun e he => mem_insert_entries he
    · obtain rfl := Except.ok.inj hnext
      rw [List.filter_cons_of_neg (by simpa using hf)]
      exact Made.cross h hrest

theorem checked_of_resolve {r : Resolution N height}
    (h : resolveFactorColumns engine artifacts frame factors = .ok r) {f : Factor}
    (hf : f ∈ factors) : checkFactor frame f = .ok () := by
  obtain ⟨plain, hplain, -⟩ := bind_eq_ok.mp h
  have hall : ∀ {l : List Factor} {r r' : Resolution N height},
      l.foldlM (resolvePlain engine artifacts frame factors) r = .ok r' → f ∈ l →
        checkFactor frame f = .ok () := by
    intro l
    induction l with
    | nil => exact fun _ hmem => absurd hmem List.not_mem_nil
    | cons g l ih =>
      intro r r' hr hmem
      obtain ⟨next, hnext, hrest⟩ := foldlM_cons_eq_ok.mp hr
      rcases List.mem_cons.mp hmem with rfl | hmem
      · obtain ⟨_, hcheck, -⟩ := bind_eq_ok.mp hnext
        exact hcheck
      · exact ih hrest hmem
  exact hall hplain hf

/-- After a resolution, each column holds the series of the factor that made it. -/
theorem made_of_resolve {r : Resolution N height}
    (h : resolveFactorColumns engine artifacts frame factors = .ok r) :
    Made engine artifacts frame factors r.resolved r (writers factors) := by
  obtain ⟨plain, hplain, hcross⟩ := bind_eq_ok.mp h
  have hstart : Made engine artifacts frame factors plain.resolved ({} : Resolution N height) [] :=
    ⟨fun _ _ _ hf => (by cases hf), fun e he => (by cases he)⟩
  obtain ⟨hresolved, hmade⟩ := (hstart.plain hplain).cross hcross
  rw [hresolved]
  exact hmade

end Made

end GiPricing.Factors.Frames
