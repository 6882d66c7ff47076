import Mathlib
import GiPricing.Numeric.PoissonFit

/-! # The evidence of a grouping

What merging the levels of a column costs in Poisson deviance and saves in degrees of freedom.
-/

namespace GiPricing.Modelling

open Finset Poisson ProbabilityTheory

attribute [local instance] Numerals.two

/-- The columns that evidence is taken from; a missing cell is none. The columns that are added on the
way begin with an underscore, which no ingested name does. -/
structure RatedFrame (L : Type) (height : ℕ) where
  level : Fin height → Option L
  exposure : Option (Fin height → Option ℝ)
  claims : Option (Fin height → Option ℝ)

/-- `GroupingEvidence`. -/
structure GroupingEvidence where
  source_level_count : ℕ
  target_level_count : ℕ
  deviance_before : Option ℝ
  deviance_after : Option ℝ
  df_saved : ℕ
  chi2_p_value : Option (Set.Icc (0 : ℝ) 1)

variable {L S : Type} [DecidableEq L] [DecidableEq S] {height : ℕ}

/-- How many rows a one-way summary has: one for each value, a null among them. -/
def levelCount (level : Fin height → Option S) : ℕ := (univ.image level).card

/-- The rates of the levels, without the missing cells. -/
noncomputable def levelRate (level : Fin height → Option S) (e y : Fin height → Option ℝ)
    (l : Option S) : ℝ :=
  let total_e := total level (fun i => (e i).getD 0) l
  let total_y := total level (fun i => (y i).getD 0) l
  if 0 < total_e then total_y / total_e else 0

/-- The expected claims of a row; a null level is joined to no rate. -/
noncomputable def expectedClaims (level : Fin height → Option S) (e y : Fin height → Option ℝ)
    (i : Fin height) : Option ℝ := do
  let l ← level i
  let exposure ← e i
  return levelRate level e y (some l) * exposure

open Classical in
/-- `_poisson_deviance`. -/
noncomputable def poissonDeviance (level : Fin height → Option S)
    (exposure claims : Option (Fin height → Option ℝ)) : Option ℝ := do
  let e ← exposure
  let y ← claims
  let mu := expectedClaims level e y
  let usable := univ.filter fun i => y i ≠ none ∧ ∃ m ∈ mu i, 0 < m
  if usable = ∅ then none
  else some (2 * ∑ i ∈ usable, unitDeviance ((y i).getD 0) ((mu i).getD 0))

/-- The column of target levels; `text` is the cast of a level, and `mapping` what a dictionary
gives. -/
def groupOf (text : L → String) (mapping : String → Option String) (level : Fin height → Option L)
    (i : Fin height) : Option String := (level i).bind fun l => mapping (text l)

/-- `stats.chi2.sf`: a chi-square distribution is the gamma distribution of half its degrees of freedom
and rate one half. -/
noncomputable def chi2sf (statistic : ℝ) (df : ℕ) : Set.Icc (0 : ℝ) 1 :=
  ⟨1 - cdf (gammaMeasure (df / 2) (1 / 2)) statistic, by
    have hnonneg := cdf_nonneg (gammaMeasure (df / 2) (1 / 2)) statistic
    have hle := cdf_le_one (gammaMeasure (df / 2) (1 / 2)) statistic
    constructor <;> linarith⟩

open Classical in
/-- `grouping_evidence`; the two counts are validated. -/
noncomputable def groupingEvidence (text : L → String) (frame : RatedFrame L height)
    (mapping : String → Option String) : Option GroupingEvidence :=
  let group := groupOf text mapping frame.level
  let before := levelCount frame.level
  let after := levelCount group
  let deviance_before := poissonDeviance frame.level frame.exposure frame.claims
  let deviance_after := poissonDeviance group frame.exposure frame.claims
  let df_saved := before - after
  let statistic := Option.map₂ (· - ·) deviance_after deviance_before
  let p_value := statistic.bind fun s =>
    if 0 ≤ s ∧ 0 < df_saved then some (chi2sf s df_saved) else none
  if 1 ≤ before ∧ 1 ≤ after then
    some ⟨before, after, deviance_before, deviance_after, df_saved, p_value⟩
  else none

/-- A frame of positive exposures and claim counts that are not negative, with its levels and where a
mapping takes them. -/
structure Covered (text : L → String) (frame : RatedFrame L height)
    (mapping : String → Option String) (e y : Fin height → ℝ) (l : Fin height → L)
    (t : Fin height → String) : Prop where
  level : ∀ i, frame.level i = some (l i)
  target : ∀ i, mapping (text (l i)) = some (t i)
  exposure : frame.exposure = some fun i => some (e i)
  claims : frame.claims = some fun i => some (y i)
  exposed : Exposed e y

/-! ## The deviance of a levelling -/

section Deviance

variable {e y : Fin height → ℝ} {l : Fin height → S}

theorem total_some (x : Fin height → ℝ) (i : Fin height) :
    total (fun j => some (l j)) x (some (l i)) = total l x (l i) := by
  unfold total
  congr 1
  ext j
  simp

theorem levelRate_some (h : Exposed e y) (i : Fin height) :
    levelRate (fun j => some (l j)) (fun j => some (e j)) (fun j => some (y j)) (some (l i)) =
      rate e y l (l i) := by
  simp only [levelRate, Option.getD_some, total_some]
  rw [if_pos (total_exposure_pos h i)]
  rfl

theorem poissonDeviance_eq (h : Exposed e y) (hclaim : ∃ i, 0 < y i) :
    poissonDeviance (fun i => some (l i)) (some fun i => some (e i)) (some fun i => some (y i)) =
      some (deviance e y l (rate e y l)) := by
  have hmu : ∀ i, expectedClaims (fun j => some (l j)) (fun j => some (e j)) (fun j => some (y j)) i =
      some (rate e y l (l i) * e i) := by
    intro i
    simp [expectedClaims, levelRate_some h]
  have husable : ∀ i, (∃ m ∈ some (rate e y l (l i) * e i), 0 < m) ↔ rate e y l (l i) ≠ 0 := by
    intro i
    have hle : 0 ≤ rate e y l (l i) := rate_nonneg h i
    simp only [Option.mem_def, Option.some.injEq, exists_eq_left', mul_pos_iff_of_pos_right
      (h.exposure i)]
    exact ⟨ne_of_gt, fun hne => lt_of_le_of_ne hle hne.symm⟩
  obtain ⟨i, hi⟩ := hclaim
  simp only [poissonDeviance, hmu, husable, Option.bind_eq_bind, Option.bind_some, Option.getD_some,
    ne_eq, reduceCtorEq, not_false_eq_true, true_and]
  rw [if_neg, deviance]
  · congr 2
    apply sum_subset (filter_subset _ _)
    intro j _ hj
    apply unitDeviance_of_rate_zero h
    simpa using hj
  · intro hempty
    have hmem : i ∉ univ.filter fun j => ¬ rate e y l (l j) = 0 := by simp [hempty]
    have hpos : 0 < rate e y l (l i) := rate_pos h hi
    simp [hpos.ne'] at hmem

theorem poissonDeviance_none (h : Exposed e y) (hclaim : ∀ i, y i = 0) :
    poissonDeviance (fun i => some (l i)) (some fun i => some (e i)) (some fun i => some (y i)) =
      none := by
  have hrate : ∀ i, rate e y l (l i) = 0 := by
    intro i
    rw [rate, total, sum_eq_zero fun j _ => hclaim j, zero_div]
  simp [poissonDeviance, expectedClaims, levelRate_some h, hrate]

theorem levelCount_some : levelCount (fun i => some (l i)) = (univ.image l).card := by
  have himage : univ.image (fun i => some (l i)) = (univ.image l).image some := by
    rw [image_image]
    rfl
  rw [levelCount, himage, card_image_of_injective _ (Option.some_injective S)]

end Deviance

/-! ## What the evidence says -/

section Claim

variable {text : L → String} {frame : RatedFrame L height} {mapping : String → Option String}
  {e y : Fin height → ℝ} {l : Fin height → L} {t : Fin height → String}

/-- Two deviances, what they are the least of, and what their difference is tested on. -/
structure LikelihoodRatio (e y : Fin height → ℝ) (l : Fin height → L) (t : Fin height → String)
    (d d' : ℝ) (evidence : GroupingEvidence) : Prop where
  before : evidence.deviance_before = some d
  after : evidence.deviance_after = some d'
  least_before : IsLeast {x | ∃ r, Admissible y l r ∧ deviance e y l r = x} d
  least_after : IsLeast {x | ∃ r, Admissible y t r ∧ deviance e y t r = x} d'
  le : d ≤ d'
  eq_iff : d' = d ↔ ∀ i j, t i = t j → rate e y l (l i) = rate e y l (l j)
  df : (evidence.df_saved : ℤ) = (univ.image l).card - (univ.image t).card
  p_value : 0 < evidence.df_saved → evidence.chi2_p_value.isSome

omit [DecidableEq L] in
theorem Covered.level_eq (h : Covered text frame mapping e y l t) :
    frame.level = fun i => some (l i) := funext h.level

omit [DecidableEq L] in
theorem Covered.groupOf_eq (h : Covered text frame mapping e y l t) :
    groupOf text mapping (fun i => some (l i)) = fun i => some (t i) := by
  ext1 i
  rw [groupOf, Option.bind_some, h.target]

omit [DecidableEq L] in
theorem Covered.exists_merge (h : Covered text frame mapping e y l t) :
    ∃ merge : L → String, t = merge ∘ l := by
  refine ⟨fun x => (mapping (text x)).getD "", funext fun i => ?_⟩
  rw [Function.comp_apply, h.target, Option.getD_some]

theorem Covered.card_le (h : Covered text frame mapping e y l t) :
    (univ.image t).card ≤ (univ.image l).card := by
  obtain ⟨merge, rfl⟩ := h.exists_merge
  rw [← image_image]
  exact card_image_le

/-- The evidence over a frame with a claim. -/
theorem Covered.evidence (h : Covered text frame mapping e y l t) (hclaim : ∃ i, 0 < y i) :
    ∃ evidence, groupingEvidence text frame mapping = some evidence ∧
      LikelihoodRatio e y l t (deviance e y l (rate e y l)) (deviance e y t (rate e y t))
        evidence := by
  have hle := h.card_le
  obtain ⟨merge, hmerge⟩ := h.exists_merge
  obtain ⟨i, hi⟩ := hclaim
  have hsource : 1 ≤ (univ.image l).card := card_pos.mpr ⟨l i, mem_image_of_mem l (mem_univ i)⟩
  have htarget : 1 ≤ (univ.image t).card := card_pos.mpr ⟨t i, mem_image_of_mem t (mem_univ i)⟩
  have hdeviances : deviance e y l (rate e y l) ≤ deviance e y t (rate e y t) := by
    rw [hmerge]
    exact deviance_le_merged h.exposed
  simp only [groupingEvidence, h.level_eq, h.groupOf_eq, h.exposure, h.claims,
    poissonDeviance_eq h.exposed ⟨i, hi⟩, levelCount_some]
  refine ⟨_, if_pos ⟨hsource, htarget⟩, rfl, rfl, isLeast_deviance h.exposed,
    isLeast_deviance h.exposed, hdeviances, ?_, ?_, ?_⟩
  · rw [hmerge]
    exact deviance_merged_eq_iff h.exposed
  · push_cast [Nat.cast_sub hle]
    rfl
  · intro hdf
    simp only [Option.map₂_some_some, Option.bind_some, sub_nonneg, hdeviances, true_and]
    rw [if_pos hdf]
    rfl

/-- The frame of the targets, that a second mapping is applied to. -/
def regrouped (text : L → String) (mapping : String → Option String) (frame : RatedFrame L height) :
    RatedFrame String height where
  level := groupOf text mapping frame.level
  exposure := frame.exposure
  claims := frame.claims

/-- Grouping evidence is a likelihood ratio on a frame with a claim, and the evidence of two mappings
after each other adds up; on a frame without one there is no deviance and no test. -/
theorem groupingEvidence_likelihood (h : Covered text frame mapping e y l t) :
    ((∃ i, 0 < y i) → ∃ d d' evidence,
      groupingEvidence text frame mapping = some evidence ∧
      LikelihoodRatio e y l t d d' evidence ∧
      ∀ mapping' t', (∀ i, mapping' (t i) = some (t' i)) → ∃ d'' evidence' composed,
        groupingEvidence id (regrouped text mapping frame) mapping' = some evidence' ∧
        groupingEvidence text frame (fun s => (mapping s).bind mapping') = some composed ∧
        LikelihoodRatio e y t t' d' d'' evidence' ∧ LikelihoodRatio e y l t' d d'' composed ∧
        d'' - d = (d' - d) + (d'' - d') ∧
        composed.df_saved = evidence.df_saved + evidence'.df_saved) ∧
    ((∀ i, y i = 0) → ∀ evidence, groupingEvidence text frame mapping = some evidence →
      evidence.deviance_before = none ∧ evidence.deviance_after = none ∧
        evidence.chi2_p_value = none) := by
  constructor
  · intro hclaim
    obtain ⟨evidence, heq, hratio⟩ := h.evidence hclaim
    refine ⟨_, _, evidence, heq, hratio, ?_⟩
    intro mapping' t' htarget
    have hsecond : Covered id (regrouped text mapping frame) mapping' e y t t' :=
      ⟨fun i => by rw [regrouped, h.level_eq, h.groupOf_eq], htarget, h.exposure, h.claims, h.exposed⟩
    have hboth : Covered text frame (fun s => (mapping s).bind mapping') e y l t' :=
      ⟨h.level, fun i => by rw [h.target, Option.bind_some, htarget], h.exposure, h.claims, h.exposed⟩
    obtain ⟨evidence', heq', hratio'⟩ := hsecond.evidence hclaim
    obtain ⟨composed, hcomposed, hratio''⟩ := hboth.evidence hclaim
    refine ⟨_, evidence', composed, heq', hcomposed, hratio', hratio'', by ring, ?_⟩
    have hdf := hratio.df
    have hdf' := hratio'.df
    have hdf'' := hratio''.df
    omega
  · intro hnone evidence heq
    simp only [groupingEvidence, h.groupOf_eq, h.level_eq, h.exposure, h.claims,
      poissonDeviance_none h.exposed hnone] at heq
    split_ifs at heq
    obtain rfl := Option.some.inj heq
    exact ⟨rfl, rfl, rfl⟩

/-! ## Two levels in one group -/

def sides (i : Fin 2) : String := if i.val = 0 then "A" else "B"

def oneClaim (i : Fin 2) : ℝ := if i.val = 0 then 1 else 0

/-- Two policies of one year each, at the levels A and B. -/
def twoLevels (y : Fin 2 → ℝ) : RatedFrame String 2 where
  level := fun i => some (sides i)
  exposure := some fun _ => some 1
  claims := some fun i => some (y i)

def oneGroup (_ : String) : Option String := some "G1"

theorem covered_twoLevels {y : Fin 2 → ℝ} (hy : ∀ i, 0 ≤ y i) :
    Covered id (twoLevels y) oneGroup (fun _ => 1) y sides fun _ => "G1" :=
  ⟨fun _ => rfl, fun _ => rfl, rfl, rfl, fun _ => one_pos, hy⟩

theorem groupingEvidence_twoLevels : ∃ d d' evidence,
    groupingEvidence id (twoLevels oneClaim) oneGroup = some evidence ∧
      LikelihoodRatio (fun _ => 1) oneClaim sides (fun _ => "G1") d d' evidence := by
  have hcovered := @covered_twoLevels oneClaim fun i => by
    unfold oneClaim
    split_ifs <;> norm_num
  obtain ⟨d, d', evidence, heq, hratio, -⟩ :=
    (groupingEvidence_likelihood hcovered).1 ⟨0, by norm_num [oneClaim]⟩
  exact ⟨d, d', evidence, heq, hratio⟩

/-- A book without a claim has degrees of freedom saved and nothing to test on them. -/
theorem no_p_value_twoLevels :
    Covered id (twoLevels fun _ => 0) oneGroup (fun _ => 1) (fun _ => 0) sides (fun _ => "G1") ∧
    ∃ evidence,
    groupingEvidence id (twoLevels fun _ => 0) oneGroup = some evidence ∧ 0 < evidence.df_saved ∧ evidence.chi2_p_value = none ∧
      evidence.deviance_before = none ∧ evidence.deviance_after = none := by
  have h := covered_twoLevels (y := fun _ => 0) fun _ => le_rfl
  have hsource : (univ.image sides).card = 2 := by decide
  have htarget : (univ.image fun _ : Fin 2 => "G1").card = 1 := by decide
  simp only [groupingEvidence, h.groupOf_eq, h.level_eq, h.exposure, h.claims,
    poissonDeviance_none h.exposed fun _ => rfl, levelCount_some, hsource, htarget]
  exact ⟨h, _, if_pos (by norm_num), by norm_num, rfl, rfl, rfl⟩

end Claim

end GiPricing.Modelling
