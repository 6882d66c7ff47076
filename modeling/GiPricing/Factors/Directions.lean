import GiPricing.Factors.Sweeps

/-! # Declared directions

A direction that a factor declares is checked on the mean predictions of a sweep, which should take
its values in the own order of the factor.
-/

namespace GiPricing.Factors.Frames

open Failure Bandings Numeric

variable {N K : Type} [Field K] [LinearOrder K] {height : ℕ}

/-! ## The own order of a factor -/

section Order

variable (engine : Engine N K) (artifacts : Artifacts K) (frame : Frame N height)

def heldNumber : Held N → Option K
  | [some c] => c.float engine
  | _ => none

/-- The order of two values of a factor: that of the numbers of a numeric column, or that of the
bands of a banding. -/
def Before (f : Factor) (x y : Held N) : Prop := match f.type with
  | .identity => (∃ s, frame.get? f.source = some s ∧ s.kind = .numeric) ∧
      ∃ u v, heldNumber engine x = some u ∧ heldNumber engine y = some v ∧ u ≤ v
  | .banding => ∃ pinned, f.banding_id.bind artifacts.bandings = some pinned ∧
      ∃ a b, pinned.banding.cellLabel (heldNumber engine x) = some a ∧
        pinned.banding.cellLabel (heldNumber engine y) = some b ∧
        [a, b].Sublist pinned.banding.labels
  | _ => False

/-- The mean does not step against a direction by more than a bound. -/
def StepsWithin (f : DirectedFactor) (mean : Held N → Except Refusal K) (bound : K) (x y : Held N) :
    Prop :=
  ∀ u v, mean x = .ok u → mean y = .ok v →
    against (f.monotonic_direction = .increasing) u v ≤ bound

/-- A check judges a direction on the mean predictions at some values, which are in the own order of
the factor. -/
structure Judged (f : DirectedFactor) (values : List (Held N)) (mean : Held N → Except Refusal K)
    (check : MonotonicityCheck K) : Prop where
  factor_eq : check.factor = f.slug
  declared_eq : check.declared = f.monotonic_direction
  ordered : values.Pairwise (Before engine artifacts frame f.toFactor)
  predicted : ∀ x ∈ values, ∃ u, mean x = .ok u
  holds_iff : check.holds = true ↔ ∀ x y, [x, y] <:+: values → StepsWithin f mean tolerance x y
  passes : (∀ x y, Before engine artifacts frame f.toFactor x y → StepsWithin f mean 0 x y) →
    check.holds = true

/-- A report carries one check of a declared direction, or an omission of the factor. -/
def Carried (Swept : DirectedFactor → List (Held N) → Prop)
    (mean : DirectedFactor → Held N → Except Refusal K) (f : DirectedFactor) (report : Report K) :
    Prop :=
  f.monotonic_direction ≠ .none →
    (∃ check values, report.check = some check ∧ Swept f values ∧
      Judged engine artifacts frame f values (mean f) check) ∨
    (report.check = none ∧ ∃ o, report.omission = some o ∧ o.factor = f.slug)

end Order

section Diagnostics

variable (engine : Engine N K) (artifacts : Artifacts K) (sweeper : Sweeper engine)
  (frame : Frame N height) (factors : List DirectedFactor) (weights : Fin height → K)
  (max_levels : ℕ)

def plainOf (factors : List DirectedFactor) : List Factor := factors.map DirectedFactor.toFactor

/-- `_glm_monotonicity` -/
def glmMonotonicity (score : Score N K height) : Except Refusal (List (Report K)) :=
  factors.mapM (glmReport engine artifacts sweeper frame (plainOf factors) score)

/-- The loop of `compute_gbm_diagnostics` over the factors. -/
def gbmMonotonicity (score : Score N K height) : Except Refusal (List (Report K)) :=
  factors.mapM (gbmReport engine artifacts sweeper frame (plainOf factors) weights max_levels score)

/-- A linear model's check holds the factor at some values. -/
def GlmSwept (f : DirectedFactor) (values : List (Held N)) : Prop :=
  glmHeld engine artifacts sweeper frame f.toFactor = .ok (some values)

/-- A boosted model's sweep holds the factor at some values. -/
def GbmSwept (f : DirectedFactor) (values : List (Held N)) : Prop :=
  gbmHeld engine artifacts sweeper frame (plainOf factors) weights max_levels f.toFactor = .ok values

/-- The diagnostics of both arms read each declared direction in the own order of its factor, and
give one verdict on the same mean predictions at the same values. -/
structure DirectionsRead (glmScore gbmScore : Score N K height) : Prop where
  glm : ∃ reports, glmMonotonicity engine artifacts sweeper frame factors glmScore = .ok reports ∧
    List.Forall₂ (Carried engine artifacts frame (GlmSwept engine artifacts sweeper frame)
      fun f => meanPrediction frame glmScore [f.source]) factors reports
  gbm : (∃ f ∈ factors, f.monotonic_direction ≠ .none) → ∃ reports,
    gbmMonotonicity engine artifacts sweeper frame factors weights max_levels gbmScore =
      .ok reports ∧
    List.Forall₂ (Carried engine artifacts frame
      (GbmSwept engine artifacts sweeper frame factors weights max_levels)
      fun f => meanPrediction frame gbmScore (sweptColumns (plainOf factors) f.toFactor))
      factors reports
  same : ∀ f ∈ factors, f.monotonic_direction ≠ .none → f.id ∉ skippedIds (plainOf factors) →
    ∀ values values', GlmSwept engine artifacts sweeper frame f values →
    GbmSwept engine artifacts sweeper frame factors weights max_levels f values' →
    values.Perm values' → ∀ mean : Held N → K,
    (directionCheck f (values.map mean)).holds = (directionCheck f (values'.map mean)).holds

/-! ### What the sweeps of a boosted model must find -/

/-- The levels that a factor is swept at. -/
def sweptLevels (f : Factor) : List String :=
  match sweepAxis engine artifacts frame (plainOf factors) f with
  | .ok (axis, source) => if (axis.getD source).kind = .numeric then [] else
      keptLevels engine weights max_levels (axis.getD source)
  | .error _ => []

/-- A level is on a row whose source has a value, or is a text of the type of the column. -/
def CanHold (axis : Option (Series N height)) (source : Series N height) (level : String) : Prop :=
  match axis with
  | some axis => ∃ i, axis.text engine i = some level ∧ (source.cells i).isSome = true
  | none => (sweeper.level source level).isSome = true

/-- Each swept level can be held. -/
def Holdable (f : Factor) : Prop := ∀ axis source,
  sweepAxis engine artifacts frame (plainOf factors) f = .ok (axis, source) →
  ∀ level ∈ sweptLevels engine artifacts frame factors weights max_levels f,
    CanHold engine sweeper axis source level

/-- Of two levels one comes before the other in a banding. -/
def BandBefore (f : Factor) (a b : String) : Prop := f.type = .banding ∧
  ∃ pinned, f.banding_id.bind artifacts.bandings = some pinned ∧ [a, b].Sublist pinned.banding.labels

/-- The alphabetical order of the swept levels is that of the bands. -/
def Alphabetical (f : Factor) : Prop :=
  ∀ a ∈ sweptLevels engine artifacts frame factors weights max_levels f,
  ∀ b ∈ sweptLevels engine artifacts frame factors weights max_levels f, a < b →
    BandBefore artifacts f a b

/-- A factor that a boosted model's diagnostics sweep. -/
def IsSwept (f : Factor) : Prop := f.id ∉ skippedIds (plainOf factors) ∧ f.type ≠ .expression

/-- A model scores the frame with some columns held at each of some values. -/
def Scores (score : Score N K height) (columns : List String) (values : List (Held N)) : Prop :=
  ∀ cells ∈ values, ∃ mu, score (hold frame columns cells) = .ok mu

/-- A linear model scores each frame of its check of a factor. -/
def GlmScored (score : Score N K height) (f : DirectedFactor) : Prop :=
  f.id ∉ skippedIds (plainOf factors) → ∀ values,
    GlmSwept engine artifacts sweeper frame f values → Scores frame score [f.source] values

/-- A boosted model scores each frame of its sweep of a factor. -/
def GbmScored (score : Score N K height) (f : DirectedFactor) : Prop := ∀ values,
  GbmSwept engine artifacts sweeper frame factors weights max_levels f values →
    Scores frame score (sweptColumns (plainOf factors) f.toFactor) values

end Diagnostics

/-! ## Sweeps that go through -/

section Held

variable {engine : Engine N K} {artifacts : Artifacts K} {sweeper : Sweeper engine}
  {frame : Frame N height} {factors : List DirectedFactor} {weights : Fin height → K}
  {max_levels : ℕ} {r : Resolution N height} {f : Factor} {s source : Series N height}
  {axis : Option (Series N height)}

theorem mem_keptLevels {level : String} (h : level ∈ keptLevels engine weights max_levels s) :
    ∃ i, s.text engine i = some level := by
  unfold keptLevels at h
  rw [(List.perm_insertionSort _ _).mem_iff] at h
  obtain ⟨l, hl, rfl⟩ := List.mem_map.mp h
  have hweighted := List.mem_of_mem_take hl
  unfold weightedLevels at hweighted
  rw [(List.perm_insertionSort _ _).mem_iff] at hweighted
  obtain ⟨level, hlevel, rfl⟩ := List.mem_map.mp hweighted
  unfold observedLevels at hlevel
  rw [(List.perm_insertionSort _ _).mem_iff, List.mem_dedup, List.mem_filterMap] at hlevel
  obtain ⟨text, htext, rfl⟩ := hlevel
  obtain ⟨i, hi⟩ := List.mem_ofFn.mp htext
  exact ⟨i, hi⟩

theorem keptLevels_sorted : (keptLevels engine weights max_levels s).Pairwise (· < ·) := by
  have hobserved : (observedLevels (s.text engine)).Nodup :=
    (List.perm_insertionSort _ _).nodup_iff.mpr (List.nodup_dedup _)
  have hweighted : ((weightedLevels engine weights s).map Prod.fst).Nodup := by
    unfold weightedLevels
    rw [((List.perm_insertionSort _ _).map Prod.fst).nodup_iff, List.map_map]
    simpa [Function.comp_def] using hobserved
  have hkept : (keptLevels engine weights max_levels s).Nodup := by
    unfold keptLevels
    rw [(List.perm_insertionSort _ _).nodup_iff]
    exact hweighted.sublist ((List.take_sublist _ _).map Prod.fst)
  have hsorted := List.pairwise_insertionSort (· ≤ ·)
    (((weightedLevels engine weights s).take max_levels).map Prod.fst)
  exact hsorted.imp₂ (fun _ _ hle hne => lt_of_le_of_ne hle hne) hkept

theorem pairwise_iff_of_lt {α : Type*} [LinearOrder α] {R : α → α → Prop} : ∀ {l : List α},
    l.Pairwise (· < ·) → (l.Pairwise R ↔ ∀ a ∈ l, ∀ b ∈ l, a < b → R a b)
  | [], _ => by simp
  | a :: l, h => by
    obtain ⟨ha, hl⟩ := List.pairwise_cons.mp h
    rw [List.pairwise_cons, pairwise_iff_of_lt hl]
    constructor
    · rintro ⟨hhead, htail⟩ x hx y hy hxy
      rcases List.mem_cons.mp hx with hx | hx <;> rcases List.mem_cons.mp hy with hy | hy
      · exact absurd hxy (hx ▸ hy ▸ lt_irrefl _)
      · exact hx ▸ hhead y hy
      · exact absurd (hxy.trans (hy ▸ ha x hx)) (lt_irrefl _)
      · exact htail x hx y hy hxy
    · intro hall
      exact ⟨fun y hy => hall a List.mem_cons_self y (List.mem_cons_of_mem _ hy) (ha y hy),
        fun x hx y hy => hall x (List.mem_cons_of_mem _ hx) y (List.mem_cons_of_mem _ hy)⟩

theorem pairwise_forall₂ {α β : Type} {R : α → β → Prop} {S : α → α → Prop} {T : β → β → Prop}
    (hst : ∀ a b x y, R a x → R b y → (S a b ↔ T x y)) {l : List α} {m : List β}
    (h : List.Forall₂ R l m) : l.Pairwise S ↔ m.Pairwise T := by
  induction h with
  | nil => simp
  | @cons a x l m hax hlm ih =>
    rw [List.pairwise_cons, List.pairwise_cons, ih]
    apply and_congr_left'
    constructor
    · intro hall y hy
      obtain ⟨b, hb, hby⟩ := exists_of_forall₂ hlm.flip hy
      exact (hst a b x y hax hby).mp (hall b hb)
    · intro hall b hb
      obtain ⟨y, hy, hby⟩ := exists_of_forall₂ hlm hb
      exact (hst a b x y hax hby).mpr (hall y hy)

section Resolved

variable (hr : resolveFactorColumns engine artifacts frame (plainOf factors) = .ok r)
  (hf : f ∈ plainOf factors)

include hr hf

theorem sweepAxis_ok (hsource : f.type ≠ .interaction → f.source_columns ≠ []) :
    ∃ p, sweepAxis engine artifacts frame (plainOf factors) f = .ok p := by
  unfold sweepAxis
  split_ifs with htype
  · obtain ⟨axis, haxis⟩ := crossAxis_ok hr hf htype
    exact ⟨(some axis, axis), map_eq_ok.mpr ⟨axis, haxis, rfl⟩⟩
  · obtain ⟨source, hget⟩ := exists_source (resolve_ok.mp ⟨r, hr⟩ f hf).1.1 (hsource htype)
    obtain ⟨axis, haxis⟩ := resolvedAxis_ok hr hf htype
    refine ⟨(axis, source), require_bind_eq_ok.mpr ⟨source, hget, ?_⟩⟩
    exact bind_eq_ok.mpr ⟨axis, haxis, rfl⟩

theorem kind_sweepAxis {own : Series N height}
    (h : sweepAxis engine artifacts frame (plainOf factors) f = .ok (some own, source)) :
    own.kind = .levels := by
  unfold sweepAxis at h
  split_ifs at h with htype
  · obtain ⟨axis, haxis, heq⟩ := map_eq_ok.mp h
    obtain rfl := Option.some.inj (congrArg Prod.fst heq)
    exact kind_crossAxis hr hf htype haxis
  · obtain ⟨s, -, h⟩ := require_bind_eq_ok.mp h
    obtain ⟨axis, haxis, h⟩ := bind_eq_ok.mp h
    obtain ⟨rfl, rfl⟩ := Prod.mk.inj (pure_eq_ok.mp h)
    exact kind_resolvedAxis haxis

omit hr hf in
theorem sweepAxis_plain (htype : f.type ≠ .interaction)
    (h : sweepAxis engine artifacts frame (plainOf factors) f = .ok (axis, source)) :
    frame.get? f.source = some source ∧ resolvedAxis engine artifacts frame f = .ok axis := by
  rw [sweepAxis, if_neg htype] at h
  obtain ⟨s, hs, h⟩ := require_bind_eq_ok.mp h
  obtain ⟨a, ha, h⟩ := bind_eq_ok.mp h
  obtain ⟨rfl, rfl⟩ := Prod.mk.inj (pure_eq_ok.mp h)
  exact ⟨hs, ha⟩

omit hr hf in
theorem sweepAxis_cross (htype : f.type = .interaction)
    (h : sweepAxis engine artifacts frame (plainOf factors) f = .ok (axis, source)) :
    axis = some source := by
  rw [sweepAxis, if_pos htype] at h
  obtain ⟨a, -, heq⟩ := map_eq_ok.mp h
  obtain ⟨rfl, rfl⟩ := Prod.mk.inj heq
  rfl

theorem identity_of_numeric (hexpression : f.type ≠ .expression)
    (h : sweepAxis engine artifacts frame (plainOf factors) f = .ok (axis, source))
    (hkind : (axis.getD source).kind = .numeric) : axis = none ∧ f.type = .identity := by
  have haxis : axis = none := by
    cases axis with
    | none => rfl
    | some own =>
      rw [Option.getD_some, kind_sweepAxis hr hf h] at hkind
      cases hkind
  refine ⟨haxis, ?_⟩
  by_cases htype : f.type = .interaction
  · rw [sweepAxis_cross htype h] at haxis
    cases haxis
  · obtain ⟨series, hseries⟩ := (resolve_ok.mp ⟨r, hr⟩ f hf).1.2 htype
    have hown := (sweepAxis_plain htype h).2
    rw [haxis] at hown
    unfold resolvedAxis at hown
    split_ifs at hown with hlevels
    · obtain ⟨_, -, hsome⟩ := map_eq_ok.mp hown
      cases hsome
    · unfold plainSeries at hseries
      cases hkind : f.type <;> simp_all

omit hr hf in
theorem sweptLevels_eq (h : sweepAxis engine artifacts frame (plainOf factors) f =
      .ok (axis, source)) (hkind : (axis.getD source).kind ≠ .numeric) :
    sweptLevels engine artifacts frame factors weights max_levels f =
      keptLevels engine weights max_levels (axis.getD source) := by
  rw [sweptLevels, h]
  exact if_neg hkind

end Resolved

/-! ### The values of a boosted model's sweep -/

section Values

variable (hr : resolveFactorColumns engine artifacts frame (plainOf factors) = .ok r)
  (hf : f ∈ plainOf factors)

theorem mem_gridPoints (h : s.kind ≠ .numeric) {p : GridPoint K}
    (hp : p ∈ gridPoints engine sweeper weights max_levels s) :
    p.label ∈ keptLevels engine weights max_levels s ∧ p.value = .level p.label := by
  rw [gridPoints, if_neg h] at hp
  obtain ⟨level, hlevel, rfl⟩ := List.mem_map.mp hp
  exact ⟨hlevel, rfl⟩

theorem exists_map_require {α β ε : Type*} {x : Option α} {e : ε} {g : α → β} :
    (∃ b, (require x e).map g = .ok b) ↔ x.isSome = true := by
  cases x <;> simp [require, Except.map]

omit [Field K] in
/-- A level can be held just where it has a value. -/
theorem heldAt_level {level : String} {w : K} {axis : Option (Series N height)}
    (haxis : f.type = .interaction → axis = some source ∧ ∃ i, source.text engine i = some level) :
    (∃ cells, heldAt engine sweeper frame (plainOf factors) f axis source
      ⟨level, .level level, w⟩ = .ok cells) ↔ CanHold engine sweeper axis source level := by
  unfold heldAt CanHold
  split_ifs with htype
  · obtain ⟨rfl, i, hi⟩ := haxis htype
    have hfound : (cellRepresentative engine frame source (operandColumns (plainOf factors) f)
        level).isSome = true := by
      rw [cellRepresentative, Option.isSome_map]
      exact List.find?_isSome.mpr ⟨i, List.mem_finRange i, by simpa using hi⟩
    obtain ⟨cells, hcells⟩ := Option.isSome_iff_exists.mp hfound
    apply iff_of_true
    · exact ⟨cells, require_eq_ok.mpr hcells⟩
    · refine ⟨i, hi, ?_⟩
      unfold Series.text at hi
      obtain ⟨c, hc, -⟩ := Option.map_eq_some_iff.mp hi
      rw [hc]
      rfl
  · cases axis with
    | some axis =>
      dsimp only
      rw [← representative_isSome]
      exact exists_map_require
    | none =>
      dsimp only
      exact exists_map_require

theorem gbmHeld_eq_ok {held : List (Held N)} :
    gbmHeld engine artifacts sweeper frame (plainOf factors) weights max_levels f = .ok held ↔
      ∃ axis source, sweepAxis engine artifacts frame (plainOf factors) f = .ok (axis, source) ∧
        (gridPoints engine sweeper weights max_levels (axis.getD source)).mapM
          (heldAt engine sweeper frame (plainOf factors) f axis source) = .ok held := by
  unfold gbmHeld
  rw [bind_eq_ok]
  exact Prod.exists

include hr hf in
/-- A sweep goes through just where each of its levels can be held. -/
theorem gbmHeld_ok (hexpression : f.type ≠ .expression)
    (hsource : f.type ≠ .interaction → f.source_columns ≠ []) :
    (∃ held, gbmHeld engine artifacts sweeper frame (plainOf factors) weights max_levels f =
      .ok held) ↔ Holdable engine artifacts sweeper frame factors weights max_levels f := by
  obtain ⟨⟨axis, source⟩, haxis⟩ := sweepAxis_ok hr hf hsource
  have hpoints : (∃ held, gbmHeld engine artifacts sweeper frame (plainOf factors) weights
      max_levels f = .ok held) ↔ ∀ p ∈ gridPoints engine sweeper weights max_levels
        (axis.getD source), ∃ cells, heldAt engine sweeper frame (plainOf factors) f axis source p =
          .ok cells := by
    rw [← exists_mapM_ok_iff]
    constructor
    · rintro ⟨held, h⟩
      obtain ⟨axis', source', haxis', h⟩ := gbmHeld_eq_ok.mp h
      obtain ⟨rfl, rfl⟩ := Prod.mk.inj (Except.ok.inj (haxis.symm.trans haxis'))
      exact ⟨held, h⟩
    · rintro ⟨held, h⟩
      exact ⟨held, gbmHeld_eq_ok.mpr ⟨axis, source, haxis, h⟩⟩
  rw [hpoints]
  by_cases hkind : (axis.getD source).kind = .numeric
  · obtain ⟨rfl, htype⟩ := identity_of_numeric hr hf hexpression haxis hkind
    apply iff_of_true
    · intro p hp
      rw [gridPoints, if_pos hkind] at hp
      obtain ⟨q, -, rfl⟩ := List.mem_map.mp hp
      have hplain : f.type ≠ .interaction := by rw [htype]; decide
      refine ⟨[some (.number (sweeper.number source q.1))], ?_⟩
      unfold heldAt
      rw [if_neg hplain]
    · intro axis' source' haxis' level hlevel
      rw [sweptLevels, haxis] at hlevel
      simp only [if_pos hkind] at hlevel
      cases hlevel
  · constructor
    · intro hall axis' source' haxis' level hlevel
      obtain ⟨rfl, rfl⟩ := Prod.mk.inj (Except.ok.inj (haxis.symm.trans haxis'))
      rw [sweptLevels_eq haxis hkind] at hlevel
      have hp : ∃ p ∈ gridPoints engine sweeper weights max_levels (axis.getD source),
          ∃ w, p = ⟨level, .level level, w⟩ := by
        rw [gridPoints, if_neg hkind]
        exact ⟨_, List.mem_map_of_mem hlevel, _, rfl⟩
      obtain ⟨_, hp, w, rfl⟩ := hp
      refine (heldAt_level ?_).mp (hall _ hp)
      intro htype
      obtain rfl := sweepAxis_cross htype haxis
      exact ⟨rfl, mem_keptLevels hlevel⟩
    · intro hholdable p hp
      obtain ⟨hlevel, hvalue⟩ := mem_gridPoints hkind hp
      obtain ⟨level, value, w⟩ := p
      obtain rfl : value = .level level := hvalue
      refine (heldAt_level ?_).mpr (hholdable axis source haxis level ?_)
      · intro htype
        obtain rfl := sweepAxis_cross htype haxis
        exact ⟨rfl, mem_keptLevels hlevel⟩
      · rw [sweptLevels_eq haxis hkind]
        exact hlevel

/-- The order of the values that some levels are held at is that of the levels. -/
theorem before_heldAt {p q : GridPoint K} {x y : Held N}
    (haxis : sweepAxis engine artifacts frame (plainOf factors) f = .ok (axis, source))
    (hkind : (axis.getD source).kind ≠ .numeric)
    (hx : heldAt engine sweeper frame (plainOf factors) f axis source p = .ok x)
    (hy : heldAt engine sweeper frame (plainOf factors) f axis source q = .ok y) :
    BandBefore artifacts f p.label q.label ↔ Before engine artifacts frame f x y := by
  unfold BandBefore Before
  cases htype : f.type with
  | banding =>
    have hplain : f.type ≠ .interaction := by rw [htype]; decide
    obtain ⟨hsource, hown⟩ := sweepAxis_plain hplain haxis
    cases axis with
    | none =>
      rw [resolvedAxis, if_pos (Or.inl htype)] at hown
      obtain ⟨_, -, hsome⟩ := map_eq_ok.mp hown
      cases hsome
    | some own =>
      obtain ⟨pinned, hpinned, -, htext⟩ := text_bandingAxis hown htype hsource
      have hlabel : ∀ {p : GridPoint K} {x : Held N},
          heldAt engine sweeper frame (plainOf factors) f (some own) source p = .ok x →
            pinned.banding.cellLabel (heldNumber engine x) = some p.label := by
        intro p x hx
        unfold heldAt at hx
        rw [if_neg hplain] at hx
        obtain ⟨c, hc, rfl⟩ := map_eq_ok.mp hx
        obtain ⟨i, hi, hcell⟩ := representative_eq_some (require_eq_ok.mp hc)
        rw [← hi, htext, hcell]
        rfl
      simp [hpinned, hlabel hx, hlabel hy]
  | identity =>
    have hplain : f.type ≠ .interaction := by rw [htype]; decide
    obtain ⟨hsource, hown⟩ := sweepAxis_plain hplain haxis
    apply iff_of_false
    · simp
    · rintro ⟨⟨s, hs, hnumeric⟩, -⟩
      obtain rfl := Option.some.inj (hs.symm.trans hsource)
      rw [resolvedAxis, if_neg (by simp [htype])] at hown
      obtain rfl := Except.ok.inj hown
      exact hkind hnumeric
  | grouping | interaction | spline | polynomial | offset | expression => simp

theorem quantileGrid_sorted : (quantileGrid engine sweeper s).Pairwise (· ≤ ·) :=
  List.pairwise_insertionSort _ _

include hr hf in
/-- A sweep holds its values in the own order of the factor just where the alphabetical order of the
swept levels is that of the bands. -/
theorem pairwise_gbmHeld {held : List (Held N)} (hexpression : f.type ≠ .expression)
    (hheld : gbmHeld engine artifacts sweeper frame (plainOf factors) weights max_levels f =
      .ok held) : held.Pairwise (Before engine artifacts frame f) ↔
      Alphabetical engine artifacts frame factors weights max_levels f := by
  obtain ⟨axis, source, haxis, hheld⟩ := gbmHeld_eq_ok.mp hheld
  have hcells := mapM_eq_ok.mp hheld
  by_cases hkind : (axis.getD source).kind = .numeric
  · obtain ⟨rfl, htype⟩ := identity_of_numeric hr hf hexpression haxis hkind
    have hplain : f.type ≠ .interaction := by rw [htype]; decide
    apply iff_of_true
    · rw [gridPoints, if_pos hkind, Option.getD_none, List.forall₂_map_left_iff] at hcells
      have hgrid : ((quantileGrid engine sweeper source).zip (gridShares engine weights source
          (quantileGrid engine sweeper source))).Pairwise fun p q => p.1 ≤ q.1 := by
        rw [← List.pairwise_map (R := (· ≤ ·)), List.map_fst_zip (by simp [gridShares])]
        exact quantileGrid_sorted
      let cells (p : K × K) : Held N := [some (.number (sweeper.number source p.1))]
      have hheldAt : ∀ {p : K × K} {x : Held N}, heldAt engine sweeper frame (plainOf factors) f none
          source ⟨sweeper.format p.1, .number p.1, p.2⟩ = .ok x → x = cells p := by
        intro p x hx
        unfold heldAt at hx
        rw [if_neg hplain] at hx
        exact (Except.ok.inj hx).symm
      refine (pairwise_forall₂ (S := fun p q => Before engine artifacts frame f (cells p) (cells q))
        (fun p q x y hx hy => ?_) hcells).mp (hgrid.imp fun hle => ?_)
      · rw [hheldAt hx, hheldAt hy]
      · rw [Before, htype]
        exact ⟨⟨source, (sweepAxis_plain hplain haxis).1, hkind⟩, _, _, rfl, rfl,
          sweeper.number_mono source hle⟩
    · intro a ha
      rw [sweptLevels, haxis] at ha
      simp only [if_pos hkind] at ha
      cases ha
  · unfold Alphabetical
    rw [sweptLevels_eq haxis hkind, ← pairwise_iff_of_lt keptLevels_sorted]
    rw [gridPoints, if_neg hkind, List.forall₂_map_left_iff] at hcells
    refine (pairwise_forall₂ (fun a b x y hx hy => ?_) hcells).symm
    exact before_heldAt haxis hkind hx hy

end Values

/-! ### The values of a linear model's check -/

section Linear

variable {values : List (Held N)}

theorem glmHeld_ok (hr : resolveFactorColumns engine artifacts frame (plainOf factors) = .ok r)
    (hf : f ∈ plainOf factors) : ∃ o, glmHeld engine artifacts sweeper frame f = .ok o := by
  have hchecked := (resolve_ok.mp ⟨r, hr⟩ f hf).1
  unfold glmHeld
  split_ifs with hbanding hidentity
  · obtain ⟨htype, hsource⟩ := hbanding
    have hplain : f.type ≠ .interaction := by rw [htype]; decide
    obtain ⟨source, hget⟩ := exists_source hchecked.1 hsource
    obtain ⟨axis, haxis⟩ := resolvedAxis_ok hr hf hplain
    cases axis with
    | none =>
      rw [resolvedAxis, if_pos (Or.inl htype)] at haxis
      obtain ⟨_, -, hsome⟩ := map_eq_ok.mp haxis
      cases hsome
    | some own =>
      obtain ⟨pinned, hpinned, -⟩ := text_bandingAxis haxis htype hget
      rw [haxis, hget, hpinned]
      exact ⟨_, rfl⟩
  · obtain ⟨source, hget⟩ := exists_source hchecked.1 hidentity.2
    rw [hget]
    by_cases hkind : source.kind = .numeric
    · exact ⟨_, require_bind_eq_ok.mpr ⟨source, rfl, if_pos hkind⟩⟩
    · exact ⟨_, require_bind_eq_ok.mpr ⟨source, rfl, if_neg hkind⟩⟩
  · exact ⟨none, rfl⟩

/-- What a check of a linear model holds a factor at: the bands that have a value, or the
quantiles. -/
theorem of_glmHeld (h : glmHeld engine artifacts sweeper frame f = .ok (some values)) :
    (f.type = .banding ∧ ∃ axis source pinned,
      resolvedAxis engine artifacts frame f = .ok (some axis) ∧
      frame.get? f.source = some source ∧ f.banding_id.bind artifacts.bandings = some pinned ∧
      values = (pinned.banding.labels.filterMap (representative engine axis source)).map
        fun c => [some c]) ∨
    (f.type = .identity ∧ ∃ source, frame.get? f.source = some source ∧ source.kind = .numeric ∧
      values = (quantileGrid engine sweeper source).map fun x =>
        [some (.number (sweeper.number source x))]) := by
  unfold glmHeld at h
  split_ifs at h with hbanding hidentity
  · obtain ⟨axis, haxis, h⟩ := bind_eq_ok.mp h
    obtain ⟨own, hown, h⟩ := require_bind_eq_ok.mp h
    obtain ⟨source, hsource, h⟩ := require_bind_eq_ok.mp h
    obtain ⟨pinned, hpinned, h⟩ := require_bind_eq_ok.mp h
    refine Or.inl ⟨hbanding.1, own, source, pinned, hown ▸ haxis, hsource, hpinned, ?_⟩
    exact (Option.some.inj (pure_eq_ok.mp h)).symm
  · obtain ⟨source, hsource, h⟩ := require_bind_eq_ok.mp h
    split_ifs at h with hkind
    · exact Or.inr ⟨hidentity.1, source, hsource, hkind,
        (Option.some.inj (pure_eq_ok.mp h)).symm⟩
    · cases pure_eq_ok.mp h
  · cases Except.ok.inj h

theorem pairwise_glmHeld (h : glmHeld engine artifacts sweeper frame f = .ok (some values)) :
    values.Pairwise (Before engine artifacts frame f) := by
  rcases of_glmHeld h with ⟨htype, axis, source, pinned, haxis, hsource, hpinned, rfl⟩ |
    ⟨htype, source, hsource, hkind, rfl⟩
  · obtain ⟨pinned', hpinned', -, htext⟩ := text_bandingAxis haxis htype hsource
    obtain rfl := Option.some.inj (hpinned.symm.trans hpinned')
    rw [List.pairwise_map, List.pairwise_filterMap]
    refine List.pairwise_iff_forall_sublist.mpr ?_
    intro a b hsub c hc d hd
    have hlabel : ∀ {a : String} {c : Cell N}, representative engine axis source a = some c →
        pinned.banding.cellLabel (heldNumber engine [some c]) = some a := by
      intro a c hc
      obtain ⟨i, hi, hcell⟩ := representative_eq_some hc
      rw [← hi, htext, hcell]
      rfl
    rw [Before, htype]
    exact ⟨pinned, hpinned, a, b, hlabel hc, hlabel hd, hsub⟩
  · rw [List.pairwise_map]
    refine quantileGrid_sorted.imp fun hle => ?_
    rw [Before, htype]
    exact ⟨⟨source, hsource, hkind⟩, _, _, rfl, rfl, sweeper.number_mono source hle⟩

theorem not_sublist_both {l : List String} (hn : l.Nodup) {a b : String}
    (hab : [a, b].Sublist l) (hba : [b, a].Sublist l) : False := by
  have hindex : l.Pairwise fun a b => l.idxOf a < l.idxOf b := by
    refine List.pairwise_iff_getElem.mpr fun i j hi hj hij => ?_
    rw [hn.idxOf_getElem, hn.idxOf_getElem]
    exact hij
  have hab := List.pairwise_iff_forall_sublist.mp hindex hab
  have hba := List.pairwise_iff_forall_sublist.mp hindex hba
  exact absurd (hab.trans hba) (lt_irrefl _)

/-- Both arms hold the same values in the same order where both are in the own order. -/
theorem held_eq {values' : List (Held N)}
    (h : glmHeld engine artifacts sweeper frame f = .ok (some values))
    (h' : gbmHeld engine artifacts sweeper frame (plainOf factors) weights max_levels f =
      .ok values')
    (hordered : values'.Pairwise (Before engine artifacts frame f)) (hperm : values.Perm values') :
    values = values' := by
  have hown := pairwise_glmHeld h
  rcases of_glmHeld h with ⟨htype, -⟩ | ⟨htype, source, hsource, hkind, rfl⟩
  · refine hperm.eq_of_pairwise (fun x y _ _ hxy hyx => ?_) hown hordered
    simp only [Before, htype] at hxy hyx
    obtain ⟨pinned, hpinned, a, b, ha, hb, hab⟩ := hxy
    obtain ⟨pinned', hpinned', b', a', hb', ha', hba⟩ := hyx
    obtain rfl := Option.some.inj (hpinned.symm.trans hpinned')
    obtain rfl := Option.some.inj (ha.symm.trans ha')
    obtain rfl := Option.some.inj (hb.symm.trans hb')
    exact (not_sublist_both pinned.banding.distinct hab hba).elim
  · have hplain : f.type ≠ .interaction := by rw [htype]; decide
    obtain ⟨axis, source', haxis, hcells⟩ := gbmHeld_eq_ok.mp h'
    obtain ⟨hsource', hown'⟩ := sweepAxis_plain hplain haxis
    obtain rfl := Option.some.inj (hsource.symm.trans hsource')
    rw [resolvedAxis, if_neg (by simp [htype])] at hown'
    obtain rfl := Except.ok.inj hown'
    have hforall := mapM_eq_ok.mp hcells
    rw [gridPoints, Option.getD_none, if_pos hkind, List.forall₂_map_left_iff] at hforall
    have hgrid : ((quantileGrid engine sweeper source).zip (gridShares engine weights source
        (quantileGrid engine sweeper source))).map Prod.fst = quantileGrid engine sweeper source :=
      List.map_fst_zip (by simp [gridShares])
    rw [← hgrid, List.map_map, ← List.forall₂_eq_eq_eq, List.forall₂_map_left_iff]
    refine hforall.imp fun p x hx => ?_
    unfold heldAt at hx
    rw [if_neg hplain] at hx
    exact Except.ok.inj hx

end Linear

/-! ## The verdict -/

omit [LinearOrder K] in
theorem exists_mean {mean : Held N → Except Refusal K} {values : List (Held N)} {means : List K}
    (h : values.mapM mean = .ok means) :
    ∃ g : Held N → K, (∀ x ∈ values, mean x = .ok (g x)) ∧ means = values.map g := by
  have hg : ∀ x u, mean x = .ok u → u = ((mean x).toOption).getD 0 := by
    intro x u hu
    rw [hu]
    rfl
  refine ⟨fun x => ((mean x).toOption).getD 0, fun x hx => ?_, ?_⟩
  · obtain ⟨u, -, hu⟩ := exists_of_forall₂ (mapM_eq_ok.mp h) hx
    dsimp only
    rw [hu]
    rfl
  · rw [← List.forall₂_eq_eq_eq, List.forall₂_map_right_iff]
    exact (mapM_eq_ok.mp h).flip.imp fun u x hu => hg x u hu

theorem stepsWithin_iff {f : DirectedFactor} {mean : Held N → Except Refusal K} {g : Held N → K}
    {values : List (Held N)} (hg : ∀ x ∈ values, mean x = .ok (g x)) {bound : K} {x y : Held N}
    (hx : x ∈ values) (hy : y ∈ values) : StepsWithin f mean bound x y ↔
      against (f.monotonic_direction = .increasing) (g x) (g y) ≤ bound := by
  rw [StepsWithin, hg x hx, hg y hy]
  simp

omit [LinearOrder K] in
theorem scores_iff {score : Score N K height} {columns : List String} {values : List (Held N)} :
    (∃ means, values.mapM (meanPrediction frame score columns) = .ok means) ↔
      Scores frame score columns values := by
  rw [exists_mapM_ok_iff]
  refine forall₂_congr fun cells _ => ?_
  unfold meanPrediction
  constructor
  · rintro ⟨u, hu⟩
    obtain ⟨mu, hmu, -⟩ := map_eq_ok.mp hu
    exact ⟨mu, hmu⟩
  · rintro ⟨mu, hmu⟩
    exact ⟨_, map_eq_ok.mpr ⟨mu, hmu, rfl⟩⟩

section Verdict

variable [IsStrictOrderedRing K]

theorem tolerance_nonneg : (0 : K) ≤ tolerance := by
  unfold tolerance
  positivity

theorem judged {f : DirectedFactor} {values : List (Held N)} {mean : Held N → Except Refusal K}
    {means : List K} (hmeans : values.mapM mean = .ok means)
    (hordered : values.Pairwise (Before engine artifacts frame f.toFactor)) :
    Judged engine artifacts frame f values mean (directionCheck f means) := by
  obtain ⟨g, hg, rfl⟩ := exists_mean hmeans
  have hsteps : ∀ {bound : K} {x y : Held N}, [x, y] <:+: values →
      (StepsWithin f mean bound x y ↔
        against (f.monotonic_direction = .increasing) (g x) (g y) ≤ bound) :=
    fun hpair => stepsWithin_iff hg (hpair.subset (by simp)) (hpair.subset (by simp))
  have hholds : (directionCheck f (values.map g)).holds = true ↔
      ∀ x y, [x, y] <:+: values → StepsWithin f mean tolerance x y := by
    change decide (worstStep (f.monotonic_direction = .increasing) (values.map g) ≤ tolerance) =
      true ↔ _
    rw [decide_eq_true_eq, worstStep_le tolerance_nonneg]
    constructor
    · exact fun h x y hpair => (hsteps hpair).mpr (h _ _ (hpair.map g))
    · intro h u v hpair
      obtain ⟨l, hl, hmap⟩ := List.infix_map_iff.mp hpair
      match l, hl, hmap with
      | [x, y], hl, hmap =>
        obtain ⟨rfl, rfl⟩ : u = g x ∧ v = g y := by simpa using hmap
        exact (hsteps hl).mp (h x y hl)
  refine ⟨rfl, rfl, hordered, fun x hx => ⟨_, hg x hx⟩, hholds,
    fun hmono => hholds.mpr fun x y hpair => ?_⟩
  have hbefore : Before engine artifacts frame f.toFactor x y :=
    List.pairwise_iff_forall_sublist.mp hordered hpair.sublist
  exact (hsteps hpair).mpr (((hsteps hpair).mp (hmono x y hbefore)).trans tolerance_nonneg)

end Verdict

/-! ### The reports -/

section Reports

variable {f : DirectedFactor} {report : Report K} {score : Score N K height}
  (hr : resolveFactorColumns engine artifacts frame (plainOf factors) = .ok r) (hf : f ∈ factors)
  (hsources : ∀ f ∈ factors, f.type ≠ .interaction → f.source_columns ≠ [])

theorem mem_plainOf (hf : f ∈ factors) : f.toFactor ∈ plainOf factors := List.mem_map_of_mem hf

theorem gbmReport_swept (hswept : IsSwept factors f.toFactor) :
    gbmReport engine artifacts sweeper frame (plainOf factors) weights max_levels score f =
        .ok report ↔ ∃ axis source held means,
      sweepAxis engine artifacts frame (plainOf factors) f.toFactor = .ok (axis, source) ∧
      gbmHeld engine artifacts sweeper frame (plainOf factors) weights max_levels f.toFactor =
        .ok held ∧
      held.mapM (meanPrediction frame score (sweptColumns (plainOf factors) f.toFactor)) =
        .ok means ∧ report = {
          check := if f.monotonic_direction = .none then none else some (directionCheck f means)
          omission := (capOmission engine weights max_levels (axis.getD source)).map (⟨f.slug, ·⟩)
          points := List.zipWith (fun p mean => ⟨p.label, mean, p.exposure_share⟩)
            (gridPoints engine sweeper weights max_levels (axis.getD source)) means } := by
  rw [gbmReport, if_neg hswept.1, if_neg hswept.2, bind_eq_ok]
  constructor
  · rintro ⟨⟨axis, source⟩, haxis, h⟩
    obtain ⟨held, hheld, h⟩ := bind_eq_ok.mp h
    obtain ⟨means, hmeans, h⟩ := bind_eq_ok.mp h
    exact ⟨axis, source, held, means, haxis, hheld, hmeans, (pure_eq_ok.mp h).symm⟩
  · rintro ⟨axis, source, held, means, haxis, hheld, hmeans, rfl⟩
    exact ⟨(axis, source), haxis, bind_eq_ok.mpr ⟨held, hheld, bind_eq_ok.mpr ⟨means, hmeans, rfl⟩⟩⟩

include hr hf hsources in
theorem gbmReport_ok :
    (∃ report, gbmReport engine artifacts sweeper frame (plainOf factors) weights max_levels score f =
      .ok report) ↔ (IsSwept factors f.toFactor →
        Holdable engine artifacts sweeper frame factors weights max_levels f.toFactor ∧
        GbmScored engine artifacts sweeper frame factors weights max_levels score f) := by
  by_cases hswept : IsSwept factors f.toFactor
  · have hheld : (∃ held, gbmHeld engine artifacts sweeper frame (plainOf factors) weights max_levels
        f.toFactor = .ok held) ↔
          Holdable engine artifacts sweeper frame factors weights max_levels f.toFactor :=
      gbmHeld_ok hr (mem_plainOf hf) hswept.2 (hsources f hf)
    obtain ⟨⟨axis, source⟩, haxis⟩ := sweepAxis_ok hr (mem_plainOf hf) (hsources f hf)
    simp only [gbmReport_swept hswept]
    rw [← hheld]
    constructor
    · rintro ⟨_, _, _, held, means, -, hheld, hmeans, -⟩ _
      refine ⟨⟨held, hheld⟩, fun values hvalues => ?_⟩
      obtain rfl : held = values := Except.ok.inj (hheld.symm.trans hvalues)
      exact scores_iff.mp ⟨means, hmeans⟩
    · intro h
      obtain ⟨⟨held, hheld⟩, hscored⟩ := h hswept
      obtain ⟨means, hmeans⟩ := scores_iff.mpr (hscored held hheld)
      exact ⟨_, axis, source, held, means, haxis, hheld, hmeans, rfl⟩
  · refine iff_of_true ?_ (fun h => absurd h hswept)
    unfold gbmReport
    by_cases hskipped : f.id ∈ skippedIds (plainOf factors)
    · exact ⟨_, if_pos hskipped⟩
    · by_cases hexpression : f.type = .expression
      · rw [if_neg hskipped, if_pos hexpression]
        exact ⟨_, rfl⟩
      · exact absurd ⟨hskipped, hexpression⟩ hswept

include hr hf in
/-- A report of a boosted model carries the direction just where the alphabetical order of the swept
levels is that of the bands. -/
theorem carried_gbm [IsStrictOrderedRing K]
    (h : gbmReport engine artifacts sweeper frame (plainOf factors) weights max_levels score f =
      .ok report) :
    Carried engine artifacts frame
      (GbmSwept engine artifacts sweeper frame factors weights max_levels)
      (fun f => meanPrediction frame score (sweptColumns (plainOf factors) f.toFactor)) f report ↔
    (IsSwept factors f.toFactor → f.monotonic_direction ≠ .none →
      Alphabetical engine artifacts frame factors weights max_levels f.toFactor) := by
  by_cases hswept : IsSwept factors f.toFactor
  · obtain ⟨axis, source, held, means, -, hheld, hmeans, rfl⟩ := (gbmReport_swept hswept).mp h
    have hpairwise := pairwise_gbmHeld hr (mem_plainOf hf) hswept.2 hheld
    constructor
    · intro hcarried _ hdeclared
      rw [← hpairwise]
      rcases hcarried hdeclared with ⟨check, values, -, hvalues, hjudged⟩ | ⟨hnone, -⟩
      · obtain rfl : held = values := Except.ok.inj (hheld.symm.trans hvalues)
        exact hjudged.ordered
      · simp [hdeclared] at hnone
    · intro halphabetical hdeclared
      refine Or.inl ⟨_, held, if_neg hdeclared, hheld, ?_⟩
      exact judged hmeans (hpairwise.mpr (halphabetical hswept hdeclared))
  · refine iff_of_true (fun _ => Or.inr ?_) (fun h => absurd h hswept)
    unfold gbmReport at h
    by_cases hskipped : f.id ∈ skippedIds (plainOf factors)
    · rw [if_pos hskipped] at h
      obtain rfl := Except.ok.inj h
      exact ⟨rfl, _, rfl, rfl⟩
    · by_cases hexpression : f.type = .expression
      · rw [if_neg hskipped, if_pos hexpression] at h
        obtain rfl := Except.ok.inj h
        exact ⟨rfl, _, rfl, rfl⟩
      · exact absurd ⟨hskipped, hexpression⟩ hswept

include hr hf in
theorem glmReport_ok : (∃ report,
    glmReport engine artifacts sweeper frame (plainOf factors) score f = .ok report) ↔
      (f.monotonic_direction ≠ .none →
        GlmScored engine artifacts sweeper frame factors score f) := by
  have hheld : ∃ o, glmHeld engine artifacts sweeper frame f.toFactor = .ok o :=
    glmHeld_ok hr (mem_plainOf hf)
  obtain ⟨o, ho⟩ := hheld
  unfold glmReport
  split_ifs with hnone hskipped hexpression
  · exact iff_of_true ⟨_, rfl⟩ fun h => absurd hnone h
  · exact iff_of_true ⟨_, rfl⟩ fun _ h => absurd hskipped h
  · refine iff_of_true ⟨_, rfl⟩ fun _ _ values hvalues => ?_
    rcases of_glmHeld hvalues with ⟨htype, -⟩ | ⟨htype, -⟩ <;> rw [hexpression] at htype <;>
      cases htype
  · rw [ho]
    constructor
    · rintro ⟨report, h⟩ _ _ values hvalues
      obtain rfl := Except.ok.inj (ho.symm.trans hvalues)
      obtain ⟨_, hsome, h⟩ := bind_eq_ok.mp h
      obtain rfl := Except.ok.inj hsome
      obtain ⟨means, hmeans, -⟩ := bind_eq_ok.mp h
      exact scores_iff.mp ⟨means, hmeans⟩
    · intro h
      cases o with
      | none => exact ⟨_, bind_eq_ok.mpr ⟨none, rfl, rfl⟩⟩
      | some held =>
        obtain ⟨means, hmeans⟩ := scores_iff.mpr (h hnone hskipped held ho)
        exact ⟨_, bind_eq_ok.mpr ⟨some held, rfl, bind_eq_ok.mpr ⟨means, hmeans, rfl⟩⟩⟩

theorem carried_glm [IsStrictOrderedRing K]
    (h : glmReport engine artifacts sweeper frame (plainOf factors) score f = .ok report) :
    Carried engine artifacts frame (GlmSwept engine artifacts sweeper frame)
      (fun f => meanPrediction frame score [f.source]) f report := by
  intro hdeclared
  unfold glmReport at h
  rw [if_neg hdeclared] at h
  split_ifs at h
  · obtain rfl := Except.ok.inj h
    exact Or.inr ⟨rfl, _, rfl, rfl⟩
  · obtain rfl := Except.ok.inj h
    exact Or.inr ⟨rfl, _, rfl, rfl⟩
  · obtain ⟨o, ho, h⟩ := bind_eq_ok.mp h
    cases o with
    | none =>
      obtain rfl := pure_eq_ok.mp h
      exact Or.inr ⟨rfl, _, rfl, rfl⟩
    | some held =>
      obtain ⟨means, hmeans, h⟩ := bind_eq_ok.mp h
      obtain rfl := pure_eq_ok.mp h
      exact Or.inl ⟨_, held, rfl, ho, judged hmeans (pairwise_glmHeld ho)⟩

end Reports

end Held

/-! ## Both arms -/

variable {engine : Engine N K} {artifacts : Artifacts K} {sweeper : Sweeper engine}
  {frame : Frame N height} {factors : List DirectedFactor} {weights : Fin height → K}
  {max_levels : ℕ} {r : Resolution N height} {glmScore gbmScore : Score N K height}

theorem forall₂_and {α β : Type} {R S : α → β → Prop} {P : α → Prop} {l : List α} {m : List β}
    (h : List.Forall₂ R l m) (hs : ∀ a ∈ l, ∀ b, R a b → (S a b ↔ P a)) :
    List.Forall₂ S l m ↔ ∀ a ∈ l, P a := by
  induction h with
  | nil => simp
  | @cons a b l m hab _ ih =>
    rw [List.forall₂_cons, List.forall_mem_cons, hs a List.mem_cons_self b hab,
      ih fun a ha => hs a (List.mem_cons_of_mem _ ha)]

/-- The diagnostics read the declared directions in the own order of the factors where each frame
that a sweep holds is scored, each level that a boosted model's sweep holds has a value, and the
levels of each declared factor are in alphabetical order in the order of its bands. -/
theorem directionsRead_iff [IsStrictOrderedRing K]
    (hr : resolveFactorColumns engine artifacts frame (plainOf factors) = .ok r)
    (hsources : ∀ f ∈ factors, f.type ≠ .interaction → f.source_columns ≠ []) :
    DirectionsRead engine artifacts sweeper frame factors weights max_levels glmScore gbmScore ↔
      ∀ f ∈ factors,
        (f.monotonic_direction ≠ .none →
          GlmScored engine artifacts sweeper frame factors glmScore f) ∧
        (IsSwept factors f.toFactor →
          ((∃ g ∈ factors, g.monotonic_direction ≠ .none) →
            Holdable engine artifacts sweeper frame factors weights max_levels f.toFactor ∧
            GbmScored engine artifacts sweeper frame factors weights max_levels gbmScore f) ∧
          (f.monotonic_direction ≠ .none →
            Alphabetical engine artifacts frame factors weights max_levels f.toFactor)) := by
  have hcarried : ∀ {reports : List (Report K)},
      gbmMonotonicity engine artifacts sweeper frame factors weights max_levels gbmScore =
        .ok reports → (List.Forall₂ (Carried engine artifacts frame
          (GbmSwept engine artifacts sweeper frame factors weights max_levels)
          fun f => meanPrediction frame gbmScore (sweptColumns (plainOf factors) f.toFactor))
          factors reports ↔ ∀ f ∈ factors, IsSwept factors f.toFactor →
            f.monotonic_direction ≠ .none →
              Alphabetical engine artifacts frame factors weights max_levels f.toFactor) :=
    fun h => forall₂_and (mapM_eq_ok.mp h) fun f hf report hreport => carried_gbm hr hf hreport
  constructor
  · intro h f hf
    refine ⟨?_, fun hswept => ⟨fun hdeclared => ?_, fun hdeclared => ?_⟩⟩
    · obtain ⟨reports, hreports, -⟩ := h.glm
      exact (glmReport_ok hr hf).mp (exists_mapM_ok_iff.mp ⟨reports, hreports⟩ f hf)
    · obtain ⟨reports, hreports, -⟩ := h.gbm hdeclared
      exact (gbmReport_ok hr hf hsources).mp
        (exists_mapM_ok_iff.mp ⟨reports, hreports⟩ f hf) hswept
    · obtain ⟨reports, hreports, hall⟩ := h.gbm ⟨f, hf, hdeclared⟩
      exact (hcarried hreports).mp hall f hf hswept hdeclared
  · intro h
    refine ⟨?_, fun hdeclared => ?_, ?_⟩
    · have hok : ∀ f ∈ factors, ∃ report, glmReport engine artifacts sweeper frame (plainOf factors)
          glmScore f = .ok report := fun f hf => (glmReport_ok hr hf).mpr (h f hf).1
      obtain ⟨reports, hreports⟩ := exists_mapM_ok hok
      exact ⟨reports, hreports, (mapM_eq_ok.mp hreports).imp fun f report => carried_glm⟩
    · have hok : ∀ f ∈ factors, ∃ report, gbmReport engine artifacts sweeper frame (plainOf factors)
          weights max_levels gbmScore f = .ok report := fun f hf =>
        (gbmReport_ok hr hf hsources).mpr fun hswept => ((h f hf).2 hswept).1 hdeclared
      obtain ⟨reports, hreports⟩ := exists_mapM_ok hok
      exact ⟨reports, hreports, (hcarried hreports).mpr fun f hf hswept => ((h f hf).2 hswept).2⟩
    · intro f hf hdeclared hskipped values values' hvalues hvalues' hperm mean
      have hexpression : f.type ≠ .expression := by
        rcases of_glmHeld hvalues with ⟨htype, -⟩ | ⟨htype, -⟩ <;> rw [htype] <;> decide
      have hordered := (pairwise_gbmHeld hr (mem_plainOf hf) hexpression hvalues').mpr
        (((h f hf).2 ⟨hskipped, hexpression⟩).2 hdeclared)
      rw [held_eq hvalues hvalues' hordered hperm]

/-! ### The years of a licence -/

def licences : Frame ℚ 2 where
  entries := [("years", ⟨.numeric, ![some (.number 5), some (.number 20)]⟩)]
  nodup := by decide

def yearsEngine : Engine ℚ ℚ := ⟨fun x => toString x, id, fun _ _ _ => none, fun _ _ _ => false⟩

/-- The value nearest to a quantile; a column of numbers holds any of them. -/
def nearest : Sweeper yearsEngine where
  quantile values q := (values.insertionSort (· ≤ ·))[(round (q * (values.length - 1 : ℕ))).toNat]?
  number _ x := x
  level s l := if s.kind = .levels then some (.text l) else none
  format x := toString x
  number_mono _ _ _ h := h

/-- Two bands of years, of which the first is labelled. -/
def licenceBands (first : String) (h : first ≠ "10-49") : Artifacts ℚ where
  bandings _ := some ⟨some "years", none, ⟨[2, 10, 50], .left, [first, "10-49"], none, .error, .error,
    by decide, by decide, rfl, by simpa using h, by simp⟩⟩
  groupings _ := none

def licenceFactor : DirectedFactor :=
  { id := 1, slug := "licence", type := .banding, source_columns := ["years"], banding_id := some 1
    slug_ok := by decide, monotonic_direction := .increasing }

def predictYears : Score ℚ ℚ 2 := fun frame => .ok fun i =>
  ((frame.get? "years").bind fun s => s.cells i).elim 0 fun c => (c.float yearsEngine).getD 0

theorem licence_in_order : DirectionsRead yearsEngine (licenceBands "0-9" (by decide)) nearest licences
    [licenceFactor] (fun _ => 1) 50 predictYears predictYears := by
  have hr : (resolveFactorColumns yearsEngine (licenceBands "0-9" (by decide)) licences
      (plainOf [licenceFactor])).isOk = true := by decide
  obtain ⟨r, hr⟩ := exists_ok hr
  have hheld : (gbmHeld yearsEngine (licenceBands "0-9" (by decide)) nearest licences
      (plainOf [licenceFactor]) (fun _ => 1) 50 licenceFactor.toFactor).isOk = true := by
    with_unfolding_all decide
  have hlevels : sweptLevels yearsEngine (licenceBands "0-9" (by decide)) licences [licenceFactor]
      (fun _ => 1) 50 licenceFactor.toFactor = ["0-9", "10-49"] := by
    with_unfolding_all decide
  refine (directionsRead_iff hr (by decide)).mpr fun f hf => ?_
  obtain rfl := List.mem_singleton.mp hf
  have hscored : ∀ columns values, Scores licences predictYears columns values :=
    fun _ _ _ _ => ⟨_, rfl⟩
  refine ⟨fun _ _ _ _ => hscored _ _, fun hswept => ⟨fun _ => ⟨?_, fun _ _ => hscored _ _⟩, ?_⟩⟩
  · exact (gbmHeld_ok hr List.mem_cons_self hswept.2 (by decide)).mp (exists_ok hheld)
  · intro _ a ha b hb hab
    rw [hlevels] at ha hb
    obtain ⟨rfl, rfl⟩ : a = "0-9" ∧ b = "10-49" := by
      have hall : ∀ a ∈ ["0-9", "10-49"], ∀ b ∈ ["0-9", "10-49"], a < b →
          a = "0-9" ∧ b = "10-49" := by decide
      exact hall a ha b hb hab
    exact ⟨rfl, _, rfl, by decide⟩

def verdicts (reports : Except Refusal (List (Report ℚ))) : Option (List (Option Bool)) :=
  reports.toOption.map fun reports => reports.map fun report =>
    report.check.map MonotonicityCheck.holds

/-- The prediction rises with the years: the linear arm says so, and the boosted one, which reads the
band of the larger years first, denies it. -/
theorem licence_out_of_order :
    verdicts (glmMonotonicity yearsEngine (licenceBands "2-9" (by decide)) nearest licences
      [licenceFactor] predictYears) = some [some true] ∧
    verdicts (gbmMonotonicity yearsEngine (licenceBands "2-9" (by decide)) nearest licences
      [licenceFactor] (fun _ => 1) 50 predictYears) = some [some false] ∧
    ¬ DirectionsRead yearsEngine (licenceBands "2-9" (by decide)) nearest licences [licenceFactor]
      (fun _ => 1) 50 predictYears predictYears := by
  refine ⟨by with_unfolding_all decide, by with_unfolding_all decide, fun h => ?_⟩
  have hr : (resolveFactorColumns yearsEngine (licenceBands "2-9" (by decide)) licences
      (plainOf [licenceFactor])).isOk = true := by decide
  obtain ⟨r, hr⟩ := exists_ok hr
  obtain ⟨reports, hreports, hall⟩ := h.gbm ⟨licenceFactor, List.mem_cons_self, by decide⟩
  obtain ⟨report, _, hok, -, rfl⟩ := List.forall₂_cons_left_iff.mp (mapM_eq_ok.mp hreports)
  have hcarried := (List.forall₂_cons.mp hall).1
  have halphabetical := (carried_gbm hr List.mem_cons_self hok).mp hcarried
    ⟨by decide, by decide⟩ (by decide)
  obtain ⟨-, pinned, hpinned, hbefore⟩ := halphabetical "10-49" (by with_unfolding_all decide) "2-9"
    (by with_unfolding_all decide) (by decide)
  obtain rfl := Option.some.inj hpinned
  revert hbefore
  decide

end GiPricing.Factors.Frames
