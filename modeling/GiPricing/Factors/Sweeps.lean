import GiPricing.Numeric.Numerals
import GiPricing.Factors.Complexity
import GiPricing.Factors.Resolves
import GiPricing.Numeric.Steps

/-! # Sweeps

The mean predictions over a frame that holds a factor at one value after the other. The arms for
linear and for boosted models choose the values and their order each in its own way.
-/

namespace GiPricing.Factors.Frames

open Failure Bandings Numeric

attribute [local instance] Numerals.two Numerals.ten Numerals.twenty

inductive MonotonicDirection | none | increasing | decreasing
  deriving DecidableEq

structure DirectedFactor extends Factor where
  monotonic_direction : MonotonicDirection := .none

/-- What a sweep takes of a column: a quantile of its numbers, a number and a level as a value of its
type, and the label of a number. A larger number is no smaller as a value of the type. -/
structure Sweeper {N K : Type} [LinearOrder K] (engine : Engine N K) where
  quantile : List K → K → Option K
  number : {height : ℕ} → Series N height → K → N
  level : {height : ℕ} → Series N height → String → Option (Cell N)
  format : K → String
  number_mono : ∀ {height : ℕ} (s : Series N height) {x y : K}, x ≤ y →
    engine.float (number s x) ≤ engine.float (number s y)

structure MonotonicityCheck (K : Type) where
  factor : String
  declared : MonotonicDirection
  holds : Bool
  worst_violation : K

inductive OmissionReason (K : Type)
  | operandOfInteraction
  | expressionFactor
  | unorderedLevels
  | levelCap (levels : ℕ) (exposure_share : K)

structure Omission (K : Type) where
  factor : String
  reason : OmissionReason K

structure PartialDependencePoint (K : Type) where
  value : String
  mean_prediction : K
  exposure_share : K

structure Report (K : Type) where
  check : Option (MonotonicityCheck K) := none
  omission : Option (Omission K) := none
  points : List (PartialDependencePoint K) := []

/-- `_skipped_ids`: the operands of a cross, and the factors that source a column of one. -/
def skippedIds (factors : List Factor) : List UUID :=
  let operands := operandIds factors
  let columns := (factors.filter fun f => operands.contains f.id).flatMap Factor.source_columns
  operands ++ (factors.filter fun f => f.type ≠ .interaction ∧
    f.source_columns.any columns.contains = true).map Factor.id

variable {N K : Type} [Field K] [LinearOrder K] {height : ℕ}

def tolerance : K := 1 / 10 ^ 9

/-- The check of a declared direction on the means in the order they were taken. -/
def directionCheck (f : DirectedFactor) (means : List K) : MonotonicityCheck K :=
  let worst := worstStep (f.monotonic_direction = .increasing) means
  ⟨f.slug, f.monotonic_direction, decide (worst ≤ tolerance), worst⟩

abbrev Held (N : Type) := List (Option (Cell N))

section Sweep

variable (engine : Engine N K) (artifacts : Artifacts K) (sweeper : Sweeper engine)
  (frame : Frame N height) (factors : List Factor) (weights : Fin height → K) (max_levels : ℕ)

def hold (columns : List String) (cells : Held N) : Frame N height :=
  (columns.zip cells).foldl (fun held c =>
    held.insert c.1 ⟨((frame.get? c.1).map Series.kind).getD .other, fun _ => c.2⟩) frame

abbrev Score (N K : Type) (height : ℕ) := Frame N height → Except Refusal (Fin height → K)

def meanPrediction (score : Score N K height) (columns : List String) (cells : Held N) :
    Except Refusal K :=
  (score (hold frame columns cells)).map fun mu => (∑ i, mu i) / height

/-! ## The axis of a factor -/

/-- The series of the term of one of some factors. -/
def termSeries (some_factors : List Factor) (f : Factor) : Except Refusal (Series N height) := do
  let r ← resolveFactorColumns engine artifacts frame some_factors
  let column ← require (r.terms.get? f.slug) (.columnNotFound f.slug)
  require (r.column frame column) (.columnNotFound f.slug)

/-- `_resolved_axis` -/
def resolvedAxis (f : Factor) : Except Refusal (Option (Series N height)) :=
  if f.type = .banding ∨ f.type = .grouping then
    (termSeries engine artifacts frame [f] f).map some
  else .ok none

/-- `_representatives`: the first value of the source that resolves to a level. -/
def representative (axis source : Series N height) (level : String) : Option (Cell N) :=
  (List.finRange height).findSome? fun i =>
    if axis.text engine i = some level then source.cells i else none

/-- `_operand_columns` -/
def operandColumns (f : Factor) : List String :=
  ((f.operand_factor_ids.filterMap (byId factors)).flatMap Factor.source_columns).eraseDups

/-- `_cross_axis` -/
def crossAxis (f : Factor) : Except Refusal (Series N height) := do
  let operands ← f.operand_factor_ids.mapM fun id => require (byId factors id) (.operand f.slug)
  termSeries engine artifacts frame (f :: operands) f

/-- `_cell_representatives`: the values of some columns on the first row of a level. -/
def cellRepresentative (axis : Series N height) (columns : List String) (level : String) :
    Option (Held N) :=
  ((List.finRange height).find? fun i => axis.text engine i = some level).map fun i =>
    columns.map fun c => (frame.get? c).bind fun s => s.cells i

/-! ## The sweep of a boosted model -/

/-- The quantiles of a column, from the smallest. -/
def quantileGrid (s : Series N height) : List K :=
  let values := (List.ofFn fun i => (s.cells i).bind (Cell.float engine)).filterMap id
  ((List.range 10).filterMap fun k =>
    sweeper.quantile values ((1 + 2 * k) / 20)).dedup.insertionSort (· ≤ ·)

/-- `_share` -/
def share (weight total : K) : K := if 0 < total then weight / total else 0

/-- `_weighted_levels`: the levels with their exposure, the most exposed first. -/
def weightedLevels (s : Series N height) : List (String × K) :=
  ((observedLevels (s.text engine)).map fun level =>
    (level, ∑ i with s.text engine i = some level, weights i)).insertionSort
      fun l m => m.2 < l.2 ∨ l.2 = m.2 ∧ l.1 ≤ m.1

def keptLevels (s : Series N height) : List String :=
  (((weightedLevels engine weights s).take max_levels).map Prod.fst).insertionSort (· ≤ ·)

/-- `_grid_shares`: the exposure of the numbers nearest to each point. -/
def gridShares (s : Series N height) (grid : List K) : List K :=
  let edges := List.zipWith (fun x y => (x + y) / 2) grid grid.tail
  (List.range grid.length).map fun k =>
    share (∑ i with ((s.cells i).bind (Cell.float engine)).any
      (fun x => edges.countP (· < x) = k) = true, weights i) (∑ i, weights i)

/-- A value of a grid: a number, or a level. -/
inductive GridValue (K : Type)
  | number (x : K)
  | level (l : String)

/-- A point of a grid: its label, its value and its share of the exposure. -/
structure GridPoint (K : Type) where
  label : String
  value : GridValue K
  exposure_share : K

/-- The points that a series is swept at. -/
def gridPoints (s : Series N height) : List (GridPoint K) :=
  if s.kind = .numeric then
    let grid := quantileGrid engine sweeper s
    (grid.zip (gridShares engine weights s grid)).map fun p =>
      ⟨sweeper.format p.1, .number p.1, p.2⟩
  else
    (keptLevels engine weights max_levels s).map fun level => ⟨level, .level level,
      share (((weightedLevels engine weights s).lookup level).getD 0) (∑ i, weights i)⟩

/-- What the cap leaves out of a sweep. -/
def capOmission (s : Series N height) : Option (OmissionReason K) :=
  let dropped := (weightedLevels engine weights s).drop max_levels
  if s.kind = .numeric ∨ dropped = [] then none
  else some (.levelCap dropped.length
    (min 1 (share (dropped.map Prod.snd).sum (∑ i, weights i))))

/-- The axis of a factor where it is not the column itself, and the column. -/
def sweepAxis (f : Factor) : Except Refusal (Option (Series N height) × Series N height) :=
  if f.type = .interaction then
    (crossAxis engine artifacts frame factors f).map fun axis => (some axis, axis)
  else do
    let source ← require (frame.get? f.source) (.columnNotFound f.slug)
    let axis ← resolvedAxis engine artifacts frame f
    return (axis, source)

def sweptColumns (f : Factor) : List String :=
  if f.type = .interaction then operandColumns factors f else [f.source]

/-- The values that the columns are held at for a point. -/
def heldAt (f : Factor) (axis : Option (Series N height)) (source : Series N height)
    (p : GridPoint K) : Except Refusal (Held N) :=
  if f.type = .interaction then
    require (cellRepresentative engine frame source (operandColumns factors f) p.label)
      (.missing f.slug)
  else match axis, p.value with
    | some axis, _ =>
      (require (representative engine axis source p.label) (.missing f.slug)).map fun c => [some c]
    | none, .number x => .ok [some (.number (sweeper.number source x))]
    | none, .level l => (require (sweeper.level source l) (.castFailed f.slug)).map fun c => [some c]

/-- The values that a boosted model's sweep of a factor holds, in its order. -/
def gbmHeld (f : Factor) : Except Refusal (List (Held N)) := do
  let (axis, source) ← sweepAxis engine artifacts frame factors f
  (gridPoints engine sweeper weights max_levels (axis.getD source)).mapM
    (heldAt engine sweeper frame factors f axis source)

variable (score : Score N K height)

/-- The diagnostics of a boosted model on one factor. -/
def gbmReport (f : DirectedFactor) : Except Refusal (Report K) :=
  if f.id ∈ skippedIds factors then
    .ok { omission := some ⟨f.slug, .operandOfInteraction⟩ }
  else if f.type = .expression then .ok { omission := some ⟨f.slug, .expressionFactor⟩ }
  else do
    let (axis, source) ← sweepAxis engine artifacts frame factors f.toFactor
    let held ← gbmHeld engine artifacts sweeper frame factors weights max_levels f.toFactor
    let means ← held.mapM (meanPrediction frame score (sweptColumns factors f.toFactor))
    return {
      check := if f.monotonic_direction = .none then none else some (directionCheck f means)
      omission := (capOmission engine weights max_levels (axis.getD source)).map (⟨f.slug, ·⟩)
      points := List.zipWith (fun p mean => ⟨p.label, mean, p.exposure_share⟩)
        (gridPoints engine sweeper weights max_levels (axis.getD source)) means }

/-! ## The sweep of a linear model -/

/-- The values that a linear model's check of a factor holds, where the factor has an order. -/
def glmHeld (f : Factor) : Except Refusal (Option (List (Held N))) :=
  if f.type = .banding ∧ f.source_columns ≠ [] then do
    let axis ← resolvedAxis engine artifacts frame f
    let axis ← require axis (.columnNotFound f.slug)
    let source ← require (frame.get? f.source) (.columnNotFound f.slug)
    let pinned ← require (f.banding_id.bind artifacts.bandings) (.artifact f.slug)
    return some ((pinned.banding.labels.filterMap (representative engine axis source)).map
      fun c => [some c])
  else if f.type = .identity ∧ f.source_columns ≠ [] then do
    let source ← require (frame.get? f.source) (.columnNotFound f.slug)
    if source.kind = .numeric then
      return some ((quantileGrid engine sweeper source).map fun x =>
        [some (.number (sweeper.number source x))])
    else return none
  else .ok none

/-- `_glm_monotonicity` on one factor -/
def glmReport (f : DirectedFactor) : Except Refusal (Report K) :=
  if f.monotonic_direction = .none then .ok {}
  else if f.id ∈ skippedIds factors then
    .ok { omission := some ⟨f.slug, .operandOfInteraction⟩ }
  else if f.type = .expression then .ok { omission := some ⟨f.slug, .expressionFactor⟩ }
  else do
    match ← glmHeld engine artifacts sweeper frame f.toFactor with
    | none => return { omission := some ⟨f.slug, .unorderedLevels⟩ }
    | some held =>
      let means ← held.mapM (meanPrediction frame score [f.source])
      return { check := some (directionCheck f means) }

end Sweep

/-! ## What an axis is made of -/

section Axis

variable {engine : Engine N K} {artifacts : Artifacts K} {frame : Frame N height}
  {factors : List Factor} {r : Resolution N height} {f : Factor} {axis source : Series N height}

omit [Field K] [LinearOrder K] in
theorem representative_eq_some {level : String} {c : Cell N}
    (h : representative engine axis source level = some c) :
    ∃ i, axis.text engine i = some level ∧ source.cells i = some c := by
  obtain ⟨i, -, hi⟩ := List.exists_of_findSome?_eq_some h
  split_ifs at hi with htext
  exact ⟨i, htext, hi⟩

omit [Field K] [LinearOrder K] in
theorem representative_isSome {level : String} :
    (representative engine axis source level).isSome = true ↔
      ∃ i, axis.text engine i = some level ∧ (source.cells i).isSome = true := by
  constructor
  · intro h
    obtain ⟨c, hc⟩ := Option.isSome_iff_exists.mp h
    obtain ⟨i, htext, hcell⟩ := representative_eq_some hc
    exact ⟨i, htext, by rw [hcell]; rfl⟩
  · rintro ⟨i, htext, hcell⟩
    refine List.findSome?_isSome_iff.mpr ⟨i, List.mem_finRange i, ?_⟩
    rw [if_pos htext]
    exact hcell

theorem source_mem (h : f.source_columns ≠ []) : f.source ∈ f.source_columns := by
  unfold Factor.source
  cases hc : f.source_columns with
  | nil => exact absurd hc h
  | cons c rest => exact List.mem_cons_self

theorem exists_source (hcheck : checkFactor frame f = .ok ()) (hsource : f.source_columns ≠ []) :
    ∃ source, frame.get? f.source = some source := by
  obtain ⟨-, hrest⟩ := ensure_bind_eq_ok.mp hcheck
  obtain ⟨-, hrest⟩ := ensure_bind_eq_ok.mp hrest
  exact Option.isSome_iff_exists.mp (ensure_eq_ok.mp hrest f.source (source_mem hsource))

theorem exists_termSeries {some_factors : List Factor}
    (h : ∃ r, resolveFactorColumns engine artifacts frame some_factors = .ok r)
    (hf : f ∈ termFactors some_factors) :
    ∃ series, termSeries engine artifacts frame some_factors f = .ok series := by
  obtain ⟨r, hr⟩ := h
  obtain ⟨column, series, hcolumn, hseries⟩ := exists_term hr hf
  refine ⟨series, bind_eq_ok.mpr ⟨r, hr, ?_⟩⟩
  exact require_bind_eq_ok.mpr ⟨column, hcolumn, require_eq_ok.mpr hseries⟩

theorem makes_termSeries {some_factors : List Factor} {series : Series N height}
    (h : termSeries engine artifacts frame some_factors f = .ok series)
    (hterms : termFactors some_factors = [f])
    (hmaker : makerIn (writers some_factors) f.slug f.column = some f) :
    ∃ resolved, Makes engine artifacts frame some_factors resolved f series := by
  obtain ⟨r, hr, h⟩ := bind_eq_ok.mp h
  obtain ⟨column, hcolumn, h⟩ := require_bind_eq_ok.mp h
  have hown : column = f.column := by
    rw [terms_of_resolve hr, hterms, termsOf_get?] at hcolumn
    simpa using hcolumn.symm
  obtain ⟨s, hs, hmakes⟩ := (made_of_resolve hr).column f.slug f.column f hmaker
  rw [hown] at h
  obtain rfl := Option.some.inj (hs.symm.trans (require_eq_ok.mp h))
  exact ⟨r.resolved, hmakes⟩

theorem termFactors_alone (htype : f.type ≠ .interaction) : termFactors [f] = [f] := by
  have hoperands : operandIds [f] = [] := by simp [operandIds, htype]
  simp [termFactors, hoperands, htype]

theorem writers_alone (htype : f.type ≠ .interaction) : writers [f] = [f] := by
  simp [writers, htype]

theorem makerIn_last {written : List Factor} :
    makerIn (written ++ [f]) f.slug f.column = some f := by
  rw [makerIn_append, if_pos ⟨rfl, rfl⟩]

theorem makerIn_alone : makerIn [f] f.slug f.column = some f := by
  rw [← List.nil_append [f], makerIn_last]

theorem plainSeries_of_resolvedAxis
    (h : resolvedAxis engine artifacts frame f = .ok (some axis)) :
    (f.type = .banding ∨ f.type = .grouping) ∧ plainSeries engine artifacts frame f = .ok axis := by
  unfold resolvedAxis at h
  split_ifs at h with htype
  · have hplain : f.type ≠ .interaction := by
      rcases htype with h | h <;> rw [h] <;> decide
    obtain ⟨series, hseries, haxis⟩ := map_eq_ok.mp h
    obtain rfl := Option.some.inj haxis
    obtain ⟨resolved, hmakes⟩ := makes_termSeries hseries (termFactors_alone hplain)
      (by rw [writers_alone hplain]; exact makerIn_alone)
    rw [Makes, if_neg hplain] at hmakes
    exact ⟨htype, hmakes⟩
  · cases Except.ok.inj h

theorem resolvedAxis_ok (hr : resolveFactorColumns engine artifacts frame factors = .ok r)
    (hf : f ∈ factors) (htype : f.type ≠ .interaction) :
    ∃ axis, resolvedAxis engine artifacts frame f = .ok axis := by
  unfold resolvedAxis
  split_ifs with haxis
  · obtain ⟨series, hseries⟩ := exists_termSeries (resolve_alone hr hf htype)
      (by rw [termFactors_alone htype]; exact List.mem_cons_self)
    exact ⟨some series, map_eq_ok.mpr ⟨series, hseries, rfl⟩⟩
  · exact ⟨none, rfl⟩

theorem text_bandingAxis (h : resolvedAxis engine artifacts frame f = .ok (some axis))
    (htype : f.type = .banding) (hsource : frame.get? f.source = some source) :
    ∃ pinned, f.banding_id.bind artifacts.bandings = some pinned ∧ axis.kind = .levels ∧
      ∀ i, axis.text engine i =
        pinned.banding.cellLabel ((source.cells i).bind (Cell.float engine)) := by
  obtain ⟨-, hplain⟩ := plainSeries_of_resolvedAxis h
  rw [plainSeries, htype] at hplain
  obtain ⟨pinned, hpinned, hplain⟩ := require_bind_eq_ok.mp hplain
  obtain ⟨-, hplain⟩ := ensure_bind_eq_ok.mp hplain
  obtain ⟨s, hs, hplain⟩ := require_bind_eq_ok.mp hplain
  obtain rfl := Option.some.inj (hs.symm.trans hsource)
  obtain ⟨texts, rfl, htexts⟩ := bandSeries_text hplain
  refine ⟨pinned, hpinned, rfl, fun i => ?_⟩
  rw [← htexts]
  simp [Series.text, Series.ofTexts, Function.comp_def, Cell.string]

theorem kind_resolvedAxis (h : resolvedAxis engine artifacts frame f = .ok (some axis)) :
    axis.kind = .levels := by
  obtain ⟨htype, hplain⟩ := plainSeries_of_resolvedAxis h
  rcases htype with htype | htype
  · rw [plainSeries, htype] at hplain
    obtain ⟨pinned, -, hplain⟩ := require_bind_eq_ok.mp hplain
    obtain ⟨-, hplain⟩ := ensure_bind_eq_ok.mp hplain
    obtain ⟨s, -, hplain⟩ := require_bind_eq_ok.mp hplain
    obtain ⟨texts, rfl, -⟩ := bandSeries_text hplain
    rfl
  · rw [plainSeries, htype] at hplain
    obtain ⟨grouping, -, hplain⟩ := require_bind_eq_ok.mp hplain
    obtain ⟨-, hplain⟩ := ensure_bind_eq_ok.mp hplain
    obtain ⟨s, -, hplain⟩ := require_bind_eq_ok.mp hplain
    unfold groupSeries at hplain
    split_ifs at hplain
    obtain rfl := Except.ok.inj hplain
    rfl

/-! ### The axis of a cross -/

section Cross

variable {operands : List Factor}

/-- The operands that a cross is resolved with. -/
def OperandsOf (factors : List Factor) (f : Factor) (operands : List Factor) : Prop :=
  f.operand_factor_ids.mapM (fun id => require (byId factors id) (Refusal.operand f.slug)) =
    .ok operands

theorem mem_operandsOf (h : OperandsOf factors f operands) {g : Factor} (hg : g ∈ operands) :
    g.id ∈ f.operand_factor_ids ∧ byId factors g.id = some g := by
  obtain ⟨id, hid, hrequire⟩ := exists_of_forall₂ (mapM_eq_ok.mp h).flip hg
  have hby := require_eq_ok.mp hrequire
  rw [(byId_mem hby).2]
  exact ⟨hid, hby⟩

theorem byId_operandsOf (h : OperandsOf factors f operands) {id : UUID}
    (hid : id ∈ f.operand_factor_ids) : byId (f :: operands) id = byId factors id := by
  obtain ⟨g, hg, hrequire⟩ := exists_of_forall₂ (mapM_eq_ok.mp h) hid
  have hby := require_eq_ok.mp hrequire
  have hsome : (byId operands id).isSome = true :=
    List.find?_isSome.mpr ⟨g, List.mem_reverse.mpr hg, by simpa using (byId_mem hby).2⟩
  obtain ⟨g', hg'⟩ := Option.isSome_iff_exists.mp hsome
  obtain ⟨hmem, hid'⟩ := byId_mem hg'
  have hown := (mem_operandsOf h hmem).2
  rw [byId_cons, hg', ← hid', hown]
  rfl

theorem plain_operandsOf (hr : resolveFactorColumns engine artifacts frame factors = .ok r)
    (hf : f ∈ factors) (htype : f.type = .interaction) (h : OperandsOf factors f operands) :
    ∀ g ∈ operands, g.type ≠ .interaction := by
  intro g hg
  obtain ⟨hid, hby⟩ := mem_operandsOf h hg
  obtain ⟨_, g', hg', hplain, -⟩ := (resolve_ok.mp ⟨r, hr⟩ f hf).2 htype _ hid
  obtain rfl := Option.some.inj (hby.symm.trans hg')
  exact hplain

theorem resolve_cross (hr : resolveFactorColumns engine artifacts frame factors = .ok r)
    (hf : f ∈ factors) (htype : f.type = .interaction) : ∃ operands, OperandsOf factors f operands ∧
      ∃ r', resolveFactorColumns engine artifacts frame (f :: operands) = .ok r' := by
  obtain ⟨-, hcross⟩ := resolve_ok.mp ⟨r, hr⟩ f hf
  have hoperands : ∃ operands, OperandsOf factors f operands := by
    apply exists_mapM_ok
    intro id hid
    obtain ⟨_, g, hg, -⟩ := hcross htype id hid
    exact ⟨g, require_eq_ok.mpr hg⟩
  obtain ⟨operands, hoperands⟩ := hoperands
  refine ⟨operands, hoperands, resolve_some hr ?_ ?_⟩
  · rintro g hg
    rcases List.mem_cons.mp hg with rfl | hg
    · exact hf
    · exact (byId_mem (mem_operandsOf hoperands hg).2).1
  · intro g hg hcross id hid
    rcases List.mem_cons.mp hg with rfl | hg
    · exact byId_operandsOf hoperands hid
    · exact absurd hcross (plain_operandsOf hr hf htype hoperands g hg)

theorem crossAxis_ok (hr : resolveFactorColumns engine artifacts frame factors = .ok r)
    (hf : f ∈ factors) (htype : f.type = .interaction) :
    ∃ axis, crossAxis engine artifacts frame factors f = .ok axis := by
  obtain ⟨operands, hoperands, hr'⟩ := resolve_cross hr hf htype
  obtain ⟨series, hseries⟩ := exists_termSeries hr'
    (mem_termFactors.mpr ⟨List.mem_cons_self, Or.inl htype⟩)
  exact ⟨series, bind_eq_ok.mpr ⟨operands, hoperands, hseries⟩⟩

theorem operand_contained {g : Factor} (htype : f.type = .interaction)
    (hid : g.id ∈ f.operand_factor_ids) :
    (operandIds (f :: operands)).contains g.id = true := by
  rw [List.contains_iff_mem]
  exact List.mem_flatMap.mpr ⟨f, List.mem_filter.mpr ⟨List.mem_cons_self, by simpa using htype⟩, hid⟩

theorem termFactors_cross (hr : resolveFactorColumns engine artifacts frame factors = .ok r)
    (hf : f ∈ factors) (htype : f.type = .interaction) (h : OperandsOf factors f operands) :
    termFactors (f :: operands) = [f] := by
  have hcrosses : (operands.filter fun g => g.type = .interaction) = [] := by
    rw [List.filter_eq_nil_iff]
    exact fun g hg => by simpa using plain_operandsOf hr hf htype h g hg
  have hfree : (operands.filter fun g => g.type ≠ .interaction ∧
      (operandIds (f :: operands)).contains g.id = false) = [] := by
    rw [List.filter_eq_nil_iff]
    intro g hg
    simp only [operand_contained htype (mem_operandsOf h hg).1]
    simp
  unfold termFactors
  rw [List.filter_cons_of_neg (by simp [htype]), hfree,
    List.filter_cons_of_pos (by simpa using htype), hcrosses]
  rfl

theorem makerIn_cross (hr : resolveFactorColumns engine artifacts frame factors = .ok r)
    (hf : f ∈ factors) (htype : f.type = .interaction) (h : OperandsOf factors f operands) :
    makerIn (writers (f :: operands)) f.slug f.column = some f := by
  have hcrosses : (operands.filter fun g => g.type = .interaction) = [] := by
    rw [List.filter_eq_nil_iff]
    exact fun g hg => by simpa using plain_operandsOf hr hf htype h g hg
  unfold writers
  rw [List.filter_cons_of_pos (p := fun g : Factor => decide (g.type = .interaction))
    (by simpa using htype), hcrosses]
  exact makerIn_last

theorem kind_crossAxis (hr : resolveFactorColumns engine artifacts frame factors = .ok r)
    (hf : f ∈ factors) (htype : f.type = .interaction)
    (h : crossAxis engine artifacts frame factors f = .ok axis) : axis.kind = .levels := by
  obtain ⟨operands, hoperands, h⟩ := bind_eq_ok.mp h
  obtain ⟨resolved, hmakes⟩ := makes_termSeries h (termFactors_cross hr hf htype hoperands)
    (makerIn_cross hr hf htype hoperands)
  rw [Makes, if_pos htype] at hmakes
  obtain ⟨sides, -, rfl⟩ := hmakes
  rfl

end Cross

end Axis

end GiPricing.Factors.Frames
