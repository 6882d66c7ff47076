import GiPricing.Numeric.Numerals
import Mathlib
import GiPricing.Factors.Design
import GiPricing.Numeric.NormalQuantile

/-! # The interval of a prediction

The prediction of a GLM for every row of a frame, and the confidence interval around it that its
covariance matrix gives.
-/

namespace GiPricing.Factors

open Failure Quantile

attribute [local instance] Numerals.two

inductive Link | log | identity | logit | inverse
  deriving DecidableEq

/-- The mean at a linear predictor, where it is a number. -/
noncomputable def Link.mean : Link → ℝ → ℝ
  | .log, eta => Real.exp eta
  | .identity, eta => eta
  | .logit, eta => 1 / (1 + Real.exp (-eta))
  | .inverse, eta => 1 / eta

/-- `_inverse_link`: one over zero is infinite. -/
noncomputable def inverseLink (link : Link) (eta : ℝ) : EReal :=
  if link = .inverse ∧ eta = 0 then ⊤ else (link.mean eta : EReal)

inductive PredictError
  | level
  | covariance
  | offset
  | design (e : DesignError)
  deriving DecidableEq

/-- What a GLM is scored from: the fit, the resolved factors, the frame and the offset. -/
structure Scored (W : Type) (height : ℕ) where
  coefficients : List (Coefficient ℝ)
  matrix : FactorMatrix ℝ W height
  data : String → Option (Cells ℝ height)
  link : Link
  offset : OffsetSpec
  modelOffset : Option (List (Option ℝ))

/-- A covariance matrix as it is stored, with its terms. -/
structure StoredCovariance where
  terms : List String
  matrix : List (List ℝ)

/-- `decode_covariance`, of what the stored bytes parse to. -/
def decodeCovariance (stored : Option StoredCovariance) (terms : List String) :
    Except PredictError (List (List ℝ)) := do
  let document ← require stored .covariance
  ensure (document.terms = terms) .covariance
  ensure (document.matrix ≠ [] ∧ document.matrix.length = terms.length ∧
    ∀ row ∈ document.matrix, row.length = terms.length) .covariance
  return document.matrix

/-- `Σⱼ xⱼ bⱼ`. -/
def dot (x b : List ℝ) : ℝ := (x.zipWith (· * ·) b).sum

/-- `x'Vx`. -/
def quadratic (covariance : List (List ℝ)) (x : List ℝ) : ℝ :=
  dot x (covariance.map (dot · x))

/-- `inv_cdf(1.0 - (1.0 - level) / 2.0)`. -/
noncomputable def score (level : ℝ) : ℝ := normalQuantile (1 - (1 - level) / 2)

noncomputable def halfWidth (level variance : ℝ) : ℝ := score level * √(max variance 0)

/-- What is quoted on each row; a missing value is none. -/
structure Quoted (height : ℕ) where
  expected : Fin height → Option EReal
  lower : Fin height → Option EReal
  upper : Fin height → Option EReal

/-- The centre and half the width of each row's interval on the scale of the link. -/
abbrev LinkScale (height : ℕ) := Fin height → Option (ℝ × ℝ)

namespace Scored

variable {W : Type} {height : ℕ} (s : Scored W height)

def terms : List String := s.coefficients.map Coefficient.term

/-- `_term_vectors`: one column for each coefficient, in their order. -/
def termVectors : Except PredictError (List (DesignColumn ℝ height)) :=
  (s.matrix.designColumns s.terms).mapError .design

def offsetCells (name : String) : Except PredictError (DesignColumn ℝ height) := do
  let cells ← require (s.data name) .offset
  require cells.number (.design (.castFailed name))

open Classical in
/-- `_offset`. -/
noncomputable def offsetColumn : Except PredictError (Option (DesignColumn ℝ height)) :=
  match s.offset with
  | .none => .ok none
  | .model => do
    let values ← require s.modelOffset .offset
    if h : values.length = height then
      if ∃ value ∈ values, value = none then .error .offset
      else return some fun i => values.get (i.cast h.symm)
    else .error .offset
  | .column name => (s.offsetCells name).map some
  | .logColumn name => do
    let values ← s.offsetCells name
    if ∃ i, ∃ value ∈ values i, value ≤ 0 then .error .offset
    else return some fun i => (values i).map Real.log

/-- The offset of a row, or nothing to add. -/
def offsetAt (offset : Option (DesignColumn ℝ height)) (i : Fin height) : Option ℝ :=
  match offset with
  | none => some 0
  | some values => values i

/-- `_accumulate`: a missing cell takes over the sum. -/
def accumulate (columns : List (DesignColumn ℝ height)) (offset : Option (DesignColumn ℝ height))
    (i : Fin height) : Option ℝ :=
  let eta := (s.coefficients.zip columns).foldl
    (fun eta (coefficient, vector) =>
      Option.map₂ (fun sum x => sum + coefficient.estimate * x) eta (vector i)) (some 0)
  match offset with
  | none => eta
  | some values => Option.map₂ (· + ·) eta (values i)

/-- `linear_predictor`. -/
noncomputable def linearPredictor : Except PredictError (DesignColumn ℝ height) := do
  let columns ← s.termVectors
  let offset ← s.offsetColumn
  return s.accumulate columns offset

/-- `predict_glm`. -/
noncomputable def predictGlm : Except PredictError (Fin height → Option EReal) :=
  s.linearPredictor.map fun eta i => (eta i).map (inverseLink s.link)

/-- A row of the design; it has no numbers where a cell is missing. -/
def designRow (columns : List (DesignColumn ℝ height)) (i : Fin height) : Option (List ℝ) :=
  columns.mapM (· i)

def beta : List ℝ := s.coefficients.map Coefficient.estimate

/-- The centre and half the width, from the design and the covariance matrix. -/
noncomputable def linkRow (covariance : List (List ℝ)) (level : ℝ)
    (columns : List (DesignColumn ℝ height)) (offset : Option (DesignColumn ℝ height))
    (i : Fin height) : Option (ℝ × ℝ) := do
  let x ← designRow columns i
  let shift ← offsetAt offset i
  return (dot x s.beta + shift, halfWidth level (quadratic covariance x))

open Classical in
/-- `predict_glm_interval`, up to the link. -/
noncomputable def linkScale (stored : Option StoredCovariance) (level : ℝ) :
    Except PredictError (LinkScale height) := do
  ensure (0 < level ∧ level < 1) .level
  let covariance ← decodeCovariance stored s.terms
  let columns ← s.termVectors
  let offset ← s.offsetColumn
  return s.linkRow covariance level columns offset

/-- The bounds are ordered after the link. -/
noncomputable def quote (scale : LinkScale height) : Quoted height where
  expected i := (scale i).map fun (eta, _) => inverseLink s.link eta
  lower i := (scale i).map fun (eta, half) =>
    min (inverseLink s.link (eta - half)) (inverseLink s.link (eta + half))
  upper i := (scale i).map fun (eta, half) =>
    max (inverseLink s.link (eta - half)) (inverseLink s.link (eta + half))

/-- `predict_glm_interval`. -/
noncomputable def predictGlmInterval (stored : Option StoredCovariance) (level : ℝ) :
    Except PredictError (Quoted height) :=
  (s.linkScale stored level).map s.quote

end Scored

/-! ## The link over an interval -/

namespace Link

theorem inverseLink_eq_coe {link : Link} {eta y : ℝ} :
    inverseLink link eta = (y : EReal) ↔ (link = .inverse → eta ≠ 0) ∧ link.mean eta = y := by
  unfold inverseLink
  split_ifs with h
  · simp [h.1, h.2]
  · rw [EReal.coe_eq_coe_iff]
    tauto

theorem mean_monotone {link : Link} (h : link ≠ .inverse) : Monotone link.mean := by
  intro a b hab
  cases link with
  | log => exact Real.exp_le_exp.mpr hab
  | identity => exact hab
  | logit =>
    apply one_div_le_one_div_of_le
    · positivity
    · have := Real.exp_le_exp.mpr (neg_le_neg hab)
      linarith
  | inverse => exact absurd rfl h

theorem mean_mem {link : Link} {a b x : ℝ} (hax : a ≤ x) (hxb : x ≤ b)
    (h : link = .inverse → 0 < a ∨ b < 0) :
    min (link.mean a) (link.mean b) ≤ link.mean x ∧
      link.mean x ≤ max (link.mean a) (link.mean b) := by
  by_cases hlink : link = .inverse
  · subst hlink
    have hanti : Link.inverse.mean b ≤ Link.inverse.mean x ∧
        Link.inverse.mean x ≤ Link.inverse.mean a := by
      obtain ha | hb := h rfl
      · exact ⟨one_div_le_one_div_of_le (by linarith) hxb, one_div_le_one_div_of_le ha hax⟩
      · exact ⟨one_div_le_one_div_of_neg_of_le hb hxb,
          one_div_le_one_div_of_neg_of_le (by linarith) hax⟩
    exact ⟨(min_le_right _ _).trans hanti.1, hanti.2.trans (le_max_left _ _)⟩
  · have hmono := mean_monotone hlink
    exact ⟨(min_le_left _ _).trans (hmono hax), (hmono hxb).trans (le_max_right _ _)⟩

theorem mean_outside {eta half : ℝ} (heta : eta ≠ 0) (h : |eta| < half) :
    Link.inverse.mean eta < min (Link.inverse.mean (eta - half)) (Link.inverse.mean (eta + half)) ∨
      max (Link.inverse.mean (eta - half)) (Link.inverse.mean (eta + half)) <
        Link.inverse.mean eta := by
  obtain ⟨hlow, hhigh⟩ := abs_lt.mp h
  have hfirst : Link.inverse.mean (eta - half) < 0 := one_div_neg.mpr (by linarith)
  have hsecond : 0 < Link.inverse.mean (eta + half) := one_div_pos.mpr (by linarith)
  obtain hneg | hpos := lt_or_gt_of_ne heta
  · left
    apply lt_min
    · exact one_div_lt_one_div_of_neg_of_lt hneg (by linarith)
    · exact (one_div_neg.mpr hneg).trans hsecond
  · right
    apply max_lt
    · exact hfirst.trans (one_div_pos.mpr hpos)
    · exact one_div_lt_one_div_of_lt hpos (by linarith)

/-- Two ends that are numbers, and no wider than the centre is far from zero, are on one side of the
pole. -/
theorem oneSided {link : Link} {eta half : ℝ} (h : link = .inverse → half ≤ |eta|)
    (hfirst : link = .inverse → eta - half ≠ 0) (hsecond : link = .inverse → eta + half ≠ 0) :
    link = .inverse → 0 < eta - half ∨ eta + half < 0 := by
  intro hlink
  obtain hpos | hneg := abs_cases eta
  · left
    apply lt_of_le_of_ne _ (hfirst hlink).symm
    linarith [h hlink]
  · right
    apply lt_of_le_of_ne _ (hsecond hlink)
    linarith [h hlink]

end Link

/-! ## What a call returns -/

/-- The three values of a row are real numbers. -/
structure Quoted.Holds {height : ℕ} (r : Quoted height) (i : Fin height)
    (lower expected upper : ℝ) : Prop where
  lower : r.lower i = some (lower : EReal)
  expected : r.expected i = some (expected : EReal)
  upper : r.upper i = some (upper : EReal)

def LinkScale.bounds {height : ℕ} (scale : LinkScale height) (i : Fin height) :
    Option (ℝ × ℝ × ℝ) :=
  (scale i).map fun (eta, half) => (eta - half, eta, eta + half)

theorem score_pos {level : ℝ} (h0 : 0 < level) (h1 : level < 1) : 0 < score level :=
  normalQuantile_pos (by linarith) (by linarith)

theorem score_lt {level level' : ℝ} (h0 : 0 < level) (h : level < level') (h1 : level' < 1) :
    score level < score level' :=
  normalQuantile_lt (by linarith) (by linarith) (by linarith)

theorem halfWidth_nonneg {level : ℝ} (h0 : 0 < level) (h1 : level < 1) (variance : ℝ) :
    0 ≤ halfWidth level variance :=
  mul_nonneg (score_pos h0 h1).le (Real.sqrt_nonneg _)

theorem halfWidth_le {level level' : ℝ} (h0 : 0 < level) (h : level < level') (h1 : level' < 1)
    (variance : ℝ) : halfWidth level variance ≤ halfWidth level' variance :=
  mul_le_mul_of_nonneg_right (score_lt h0 h h1).le (Real.sqrt_nonneg _)

theorem halfWidth_eq (level variance : ℝ) : halfWidth level variance = score level * √variance := by
  unfold halfWidth
  obtain h | h := le_total variance 0
  · rw [max_eq_right h, Real.sqrt_zero, Real.sqrt_eq_zero_of_nonpos h]
  · rw [max_eq_left h]

namespace Scored

variable {W : Type} {height : ℕ} {s : Scored W height}
  {stored : Option StoredCovariance} {level : ℝ}

theorem decodeCovariance_eq_ok {terms : List String} {covariance : List (List ℝ)}
    (h : decodeCovariance stored terms = .ok covariance) :
    ∃ document ∈ stored, document.matrix = covariance := by
  simp only [decodeCovariance, require_bind_eq_ok, ensure_bind_eq_ok, pure_eq_ok] at h
  obtain ⟨document, hstored, -, -, hmatrix⟩ := h
  exact ⟨document, hstored, hmatrix⟩

theorem linkScale_eq_ok {scale : LinkScale height} :
    s.linkScale stored level = .ok scale ↔ (0 < level ∧ level < 1) ∧
      ∃ covariance columns offset, decodeCovariance stored s.terms = .ok covariance ∧
        s.termVectors = .ok columns ∧ s.offsetColumn = .ok offset ∧
        s.linkRow covariance level columns offset = scale := by
  rw [linkScale, ensure_bind_eq_ok]
  simp only [bind_eq_ok, pure_eq_ok, exists_and_left]

theorem linkRow_eq_some {covariance : List (List ℝ)} {columns : List (DesignColumn ℝ height)}
    {offset : Option (DesignColumn ℝ height)} {i : Fin height} {p : ℝ × ℝ} :
    s.linkRow covariance level columns offset i = some p ↔
      ∃ x shift, designRow columns i = some x ∧ offsetAt offset i = some shift ∧
        (dot x s.beta + shift, halfWidth level (quadratic covariance x)) = p := by
  simp only [linkRow, Option.bind_eq_bind, Option.bind_eq_some_iff, Option.pure_def,
    Option.some.injEq, exists_and_left]

theorem length_termVectors {columns : List (DesignColumn ℝ height)}
    (h : s.termVectors = .ok columns) : columns.length = s.coefficients.length := by
  rw [termVectors, mapError_eq_ok, FactorMatrix.designColumns, mapM_eq_ok] at h
  rw [← h.length_eq, terms, List.length_map]

theorem foldl_eq_dot (i : Fin height) : ∀ (coefficients : List (Coefficient ℝ))
    (columns : List (DesignColumn ℝ height)), columns.length = coefficients.length →
    ∀ sum : Option ℝ, (coefficients.zip columns).foldl (fun eta (coefficient, vector) =>
      Option.map₂ (fun sum x => sum + coefficient.estimate * x) eta (vector i)) sum =
      Option.map₂ (fun sum x => sum + dot x (coefficients.map Coefficient.estimate)) sum
        (designRow columns i) := by
  intro coefficients
  induction coefficients with
  | nil =>
    intro columns hlen sum
    obtain rfl := List.length_eq_zero_iff.mp hlen
    cases sum <;> simp [designRow, dot]
  | cons coefficient coefficients ih =>
    intro columns hlen sum
    cases columns with
    | nil => simp at hlen
    | cons vector columns =>
      have hrow : designRow (vector :: columns) i =
          Option.map₂ List.cons (vector i) (designRow columns i) := by
        cases hv : vector i <;> cases hr : designRow columns i <;>
          simp_all [designRow, List.mapM_cons]
      rw [List.zip_cons_cons, List.foldl_cons, ih columns (by simpa using hlen), hrow]
      cases sum <;> cases hv : vector i <;> cases designRow columns i <;>
        simp [hv, dot, add_assoc, mul_comm]

theorem accumulate_eq (covariance : List (List ℝ)) (level : ℝ)
    {columns : List (DesignColumn ℝ height)} (h : s.termVectors = .ok columns)
    (offset : Option (DesignColumn ℝ height)) (i : Fin height) :
    s.accumulate columns offset i =
      (s.linkRow covariance level columns offset i).map Prod.fst := by
  have hsum := foldl_eq_dot i s.coefficients columns (length_termVectors h) (some 0)
  simp only [accumulate, hsum, linkRow, beta]
  cases offset with
  | none => cases designRow columns i <;> simp [offsetAt]
  | some values =>
    cases designRow columns i <;> cases hvalue : values i <;> simp [offsetAt, hvalue]

theorem predictGlm_eq {r : Quoted height} (h : s.predictGlmInterval stored level = .ok r) :
    s.predictGlm = .ok r.expected := by
  rw [predictGlmInterval, map_eq_ok] at h
  obtain ⟨scale, hscale, rfl⟩ := h
  obtain ⟨-, covariance, columns, offset, -, hcolumns, hoffset, rfl⟩ := linkScale_eq_ok.mp hscale
  have heta : s.linearPredictor = .ok (s.accumulate columns offset) := by
    simp only [linearPredictor, bind_eq_ok, pure_eq_ok]
    exact ⟨columns, hcolumns, offset, hoffset, rfl⟩
  rw [predictGlm, map_eq_ok]
  refine ⟨_, heta, ?_⟩
  ext1 i
  rw [accumulate_eq covariance level hcolumns]
  simp [quote, Function.comp_def]

/-- The numbers of a row, from its centre and half its width. -/
theorem quote_holds {scale : LinkScale height} {i : Fin height} {lower expected upper : ℝ} :
    (s.quote scale).Holds i lower expected upper ↔ ∃ eta half, scale i = some (eta, half) ∧
      (s.link = .inverse → eta ≠ 0 ∧ eta - half ≠ 0 ∧ eta + half ≠ 0) ∧
      s.link.mean eta = expected ∧
      min (s.link.mean (eta - half)) (s.link.mean (eta + half)) = lower ∧
      max (s.link.mean (eta - half)) (s.link.mean (eta + half)) = upper := by
  constructor
  · rintro ⟨hlower, hexpected, hupper⟩
    cases hrow : scale i with
    | none => simp [quote, hrow] at hexpected
    | some p =>
      obtain ⟨eta, half⟩ := p
      simp only [quote, hrow, Option.map_some, Option.some.injEq] at hlower hexpected hupper
      obtain ⟨hne, hmean⟩ := Link.inverseLink_eq_coe.mp hexpected
      have hreal : ∀ x, inverseLink s.link x ≤ (upper : EReal) →
          inverseLink s.link x = (s.link.mean x : EReal) := by
        intro x hx
        unfold inverseLink at hx ⊢
        split_ifs with hpole
        · rw [if_pos hpole] at hx
          exact absurd (top_le_iff.mp hx) (EReal.coe_ne_top _)
        · rfl
      have hfirst := hreal _ ((le_max_left _ _).trans_eq hupper)
      have hsecond := hreal _ ((le_max_right _ _).trans_eq hupper)
      rw [hfirst, hsecond, ← EReal.coe_strictMono.monotone.map_min, EReal.coe_eq_coe_iff] at hlower
      rw [hfirst, hsecond, ← EReal.coe_strictMono.monotone.map_max, EReal.coe_eq_coe_iff] at hupper
      exact ⟨eta, half, rfl, fun hlink => ⟨hne hlink, (Link.inverseLink_eq_coe.mp hfirst).1 hlink,
        (Link.inverseLink_eq_coe.mp hsecond).1 hlink⟩, hmean, hlower, hupper⟩
  · rintro ⟨eta, half, hrow, hne, rfl, rfl, rfl⟩
    have hexpected := Link.inverseLink_eq_coe.mpr ⟨fun h => (hne h).1, rfl⟩
    have hfirst := Link.inverseLink_eq_coe.mpr ⟨fun h => (hne h).2.1, rfl⟩
    have hsecond := Link.inverseLink_eq_coe.mpr ⟨fun h => (hne h).2.2, rfl⟩
    constructor
    · simp only [quote, hrow, Option.map_some, hfirst, hsecond,
        EReal.coe_strictMono.monotone.map_min]
    · simp only [quote, hrow, Option.map_some, hexpected]
    · simp only [quote, hrow, Option.map_some, hfirst, hsecond,
        EReal.coe_strictMono.monotone.map_max]

/-! ## The interval around the prediction -/

variable (s stored level)

/-- The second model is the first with a number added to its offset. -/
def ShiftsOffset (s' : Scored W height) (added : ℝ) : Prop :=
  s'.coefficients = s.coefficients ∧ s'.matrix = s.matrix ∧
    ∀ offset, s.offsetColumn = .ok offset → ∃ offset', s'.offsetColumn = .ok offset' ∧
      ∀ i, offsetAt offset' i = (offsetAt offset i).map (· + added)

/-- The quoted interval is one around the prediction. -/
structure Surrounds (r : Quoted height) : Prop where
  expected : s.predictGlm = .ok r.expected
  around : ∀ i lower expected upper, r.Holds i lower expected upper →
    lower ≤ expected ∧ expected ≤ upper
  nested : ∀ level' < level, ∀ r', s.predictGlmInterval stored level' = .ok r' →
    ∀ i lower expected upper lower' expected' upper', r.Holds i lower expected upper →
      r'.Holds i lower' expected' upper' → lower ≤ lower' ∧ upper' ≤ upper
  shifted : ∀ s' added, s.ShiftsOffset s' added → ∀ scale, s.linkScale stored level = .ok scale →
    ∃ scale', s'.linkScale stored level = .ok scale' ∧ ∀ i, scale'.bounds i =
      (scale.bounds i).map fun (lower, centre, upper) =>
        (lower + added, centre + added, upper + added)

/-- The linear predictor of a row is zero, or at least as many standard errors away from zero as the
level asks for. -/
def ClearOfPole (i : Fin height) : Prop :=
  ∀ document ∈ stored, ∀ columns, s.termVectors = .ok columns → ∀ x ∈ designRow columns i,
    ∀ eta, s.linearPredictor = .ok eta → ∀ centre ∈ eta i,
      centre ≠ 0 → score level * √(quadratic document.matrix x) ≤ |centre|

variable {s stored level}

theorem shifted {s' : Scored W height} {added : ℝ} (h : s.ShiftsOffset s' added)
    {scale : LinkScale height} (hscale : s.linkScale stored level = .ok scale) :
    ∃ scale', s'.linkScale stored level = .ok scale' ∧ ∀ i, scale'.bounds i =
      (scale.bounds i).map fun (lower, centre, upper) =>
        (lower + added, centre + added, upper + added) := by
  obtain ⟨hcoefficients, hmatrix, hoffsets⟩ := h
  obtain ⟨hlevel, covariance, columns, offset, hdecode, hcolumns, hoffset, rfl⟩ :=
    linkScale_eq_ok.mp hscale
  obtain ⟨offset', hoffset', hat⟩ := hoffsets offset hoffset
  have hterms : s'.terms = s.terms := by rw [terms, terms, hcoefficients]
  have hcolumns' : s'.termVectors = .ok columns := by
    rw [← hcolumns, termVectors, termVectors, hterms, hmatrix]
  refine ⟨_, linkScale_eq_ok.mpr ⟨hlevel, covariance, columns, offset', by rwa [hterms], hcolumns',
    hoffset', rfl⟩, ?_⟩
  intro i
  simp only [LinkScale.bounds, linkRow, hat, beta, hcoefficients]
  cases designRow columns i with
  | none => rfl
  | some x =>
    cases offsetAt offset i with
    | none => rfl
    | some shift =>
      simp only [Option.bind_eq_bind, Option.bind_some, Option.map_some, Option.pure_def,
        Option.some.injEq, Prod.mk.injEq]
      refine ⟨by ring, by ring, by ring⟩

theorem half_nonneg {scale : LinkScale height} (hscale : s.linkScale stored level = .ok scale)
    {i : Fin height} {eta half : ℝ} (hrow : scale i = some (eta, half)) : 0 ≤ half := by
  obtain ⟨hlevel, covariance, columns, offset, -, -, -, rfl⟩ := linkScale_eq_ok.mp hscale
  obtain ⟨x, shift, -, -, hp⟩ := linkRow_eq_some.mp hrow
  rw [Prod.mk.injEq] at hp
  rw [← hp.2]
  exact halfWidth_nonneg hlevel.1 hlevel.2 _

theorem level_le {level' : ℝ} (h : level' < level) {scale scale' : LinkScale height}
    (hscale : s.linkScale stored level = .ok scale)
    (hscale' : s.linkScale stored level' = .ok scale') {i : Fin height} {eta half eta' half' : ℝ}
    (hrow : scale i = some (eta, half)) (hrow' : scale' i = some (eta', half')) :
    eta' = eta ∧ half' ≤ half := by
  obtain ⟨hlevel, covariance, columns, offset, hdecode, hcolumns, hoffset, rfl⟩ :=
    linkScale_eq_ok.mp hscale
  obtain ⟨hlevel', covariance', columns', offset', hdecode', hcolumns', hoffset', rfl⟩ :=
    linkScale_eq_ok.mp hscale'
  obtain rfl : covariance = covariance' := Except.ok.inj (hdecode.symm.trans hdecode')
  obtain rfl : columns = columns' := Except.ok.inj (hcolumns.symm.trans hcolumns')
  obtain rfl : offset = offset' := Except.ok.inj (hoffset.symm.trans hoffset')
  obtain ⟨x, shift, hx, hshift, hp⟩ := linkRow_eq_some.mp hrow
  obtain ⟨y, shift', hy, hshift', hp'⟩ := linkRow_eq_some.mp hrow'
  obtain rfl : x = y := Option.some.inj (hx.symm.trans hy)
  obtain rfl : shift = shift' := Option.some.inj (hshift.symm.trans hshift')
  simp only [Prod.mk.injEq] at hp hp'
  obtain ⟨rfl, rfl⟩ := hp
  obtain ⟨rfl, rfl⟩ := hp'
  exact ⟨rfl, halfWidth_le hlevel'.1 h hlevel.2 _⟩

/-- The condition on a row, on the scale of the link. -/
theorem clearOfPole_iff {scale : LinkScale height} (hscale : s.linkScale stored level = .ok scale)
    (i : Fin height) : s.ClearOfPole stored level i ↔
      ∀ eta half, scale i = some (eta, half) → eta ≠ 0 → half ≤ |eta| := by
  obtain ⟨-, covariance, columns, offset, hdecode, hcolumns, hoffset, rfl⟩ :=
    linkScale_eq_ok.mp hscale
  have hlinear : s.linearPredictor = .ok (s.accumulate columns offset) := by
    simp only [linearPredictor, bind_eq_ok, pure_eq_ok]
    exact ⟨columns, hcolumns, offset, hoffset, rfl⟩
  have hat := accumulate_eq covariance level hcolumns offset i
  obtain ⟨document, hstored, hmatrix⟩ := decodeCovariance_eq_ok hdecode
  constructor
  · intro h eta half hrow hne
    obtain ⟨x, shift, hx, hshift, hp⟩ := linkRow_eq_some.mp hrow
    rw [Prod.mk.injEq] at hp
    have hcentre : eta ∈ s.accumulate columns offset i := by
      rw [hat, hrow]
      rfl
    have hclear := h document hstored columns hcolumns x hx _ hlinear eta hcentre hne
    rwa [hmatrix, ← halfWidth_eq, hp.2] at hclear
  · intro h document' hstored' columns' hcolumns' x hx eta' heta' centre hcentre hne
    obtain rfl : document = document' := Option.some.inj (hstored.symm.trans hstored')
    obtain rfl : columns = columns' := Except.ok.inj (hcolumns.symm.trans hcolumns')
    obtain rfl : s.accumulate columns offset = eta' := Except.ok.inj (hlinear.symm.trans heta')
    rw [hat, Option.mem_def, Option.map_eq_some_iff] at hcentre
    obtain ⟨⟨eta, half⟩, hrow, rfl⟩ := hcentre
    obtain ⟨y, shift, hy, hshift, hp⟩ := linkRow_eq_some.mp hrow
    obtain rfl : x = y := Option.some.inj (hx.symm.trans hy)
    rw [Prod.mk.injEq] at hp
    have hle := h eta half hrow hne
    rwa [← hp.2, halfWidth_eq, ← hmatrix] at hle

/-- The interval that a call quotes is one around its prediction, with the intervals of lower levels
inside, exactly when the link has no pole on a row of the frame inside the interval. -/
theorem surrounds_iff {r : Quoted height} (h : s.predictGlmInterval stored level = .ok r) :
    s.Surrounds stored level r ↔ (s.link = .inverse → ∀ i, s.ClearOfPole stored level i) := by
  have hexpected := predictGlm_eq h
  rw [predictGlmInterval, map_eq_ok] at h
  obtain ⟨scale, hscale, rfl⟩ := h
  have hlevel := (linkScale_eq_ok.mp hscale).1
  simp only [clearOfPole_iff hscale]
  constructor
  · intro h hlink i eta half hrow hne
    by_contra hwide
    obtain ⟨hlow, hhigh⟩ := abs_lt.mp (not_le.mp hwide)
    obtain ⟨hlower, hupper⟩ := h.around i _ _ _ (quote_holds.mpr ⟨eta, half, hrow,
      fun _ => ⟨hne, by linarith, by linarith⟩, rfl, rfl, rfl⟩)
    rw [hlink] at hlower hupper
    obtain houtside | houtside := Link.mean_outside hne (not_le.mp hwide)
    · exact absurd hlower (not_le.mpr houtside)
    · exact absurd hupper (not_le.mpr houtside)
  · intro h
    refine ⟨hexpected, ?_, ?_, fun s' added hs' scale' hscale' => shifted hs' hscale'⟩
    · intro i lower expected upper hholds
      obtain ⟨eta, half, hrow, hne, rfl, rfl, rfl⟩ := quote_holds.mp hholds
      have hhalf := half_nonneg hscale hrow
      exact Link.mean_mem (by linarith) (by linarith) (Link.oneSided
        (fun hlink => h hlink i eta half hrow (hne hlink).1) (fun hlink => (hne hlink).2.1)
        fun hlink => (hne hlink).2.2)
    · intro level' hlt r' hr' i lower expected upper lower' expected' upper' hholds hholds'
      rw [predictGlmInterval, map_eq_ok] at hr'
      obtain ⟨scale', hscale', rfl⟩ := hr'
      obtain ⟨eta, half, hrow, hne, rfl, rfl, rfl⟩ := quote_holds.mp hholds
      obtain ⟨eta', half', hrow', -, rfl, rfl, rfl⟩ := quote_holds.mp hholds'
      obtain ⟨rfl, hle⟩ := level_le hlt hscale hscale' hrow hrow'
      have hnonneg := half_nonneg hscale' hrow'
      have hside := Link.oneSided
        (fun hlink => h hlink i _ half hrow (hne hlink).1) (fun hlink => (hne hlink).2.1)
        fun hlink => (hne hlink).2.2
      have hfirst := Link.mean_mem (x := eta' - half') (by linarith) (by linarith) hside
      have hsecond := Link.mean_mem (x := eta' + half') (by linarith) (by linarith) hside
      exact ⟨le_min hfirst.1 hsecond.1, max_le hfirst.2 hsecond.2⟩

/-! ## A reciprocal model -/

def interceptMatrix : FactorMatrix ℝ ℕ 1 where
  frame := fun _ => none
  terms := .empty
  categorical := []
  exposure := fun _ => 0
  slugs_ok := nofun

/-- An intercept of one under the inverse link. -/
def reciprocal : Scored ℕ 1 where
  coefficients := [⟨intercept, 1⟩]
  matrix := interceptMatrix
  data := fun _ => none
  link := .inverse
  offset := .none
  modelOffset := none

def variance (v : ℝ) : Option StoredCovariance := some ⟨[intercept], [[v]]⟩

theorem quadratic_variance (v x : ℝ) : quadratic [[v]] [x] = v * x ^ 2 := by
  simp only [quadratic, dot, List.map_cons, List.map_nil, List.zipWith_cons_cons,
    List.zipWith_nil_left, List.sum_cons, List.sum_nil]
  ring

theorem linkScale_reciprocal (v : ℝ) {level : ℝ} (h0 : 0 < level) (h1 : level < 1) :
    reciprocal.linkScale (variance v) level = .ok fun _ => some (1, halfWidth level v) := by
  rw [linkScale_eq_ok]
  refine ⟨⟨h0, h1⟩, [[v]], [fun _ => some 1], none, ?_, rfl, rfl, ?_⟩
  · simp [decodeCovariance, variance, reciprocal, terms, require, ensure, bind, Except.bind, pure,
      Except.pure]
  · ext1 i
    rw [linkRow_eq_some]
    refine ⟨[1], 0, rfl, rfl, ?_⟩
    rw [quadratic_variance]
    simp [dot, beta, reciprocal]

/-- The variance at which the half width of an interval of a level of one half is one half. -/
noncomputable def narrowVariance : ℝ := (1 / (2 * score (1 / 2))) ^ 2

theorem halfWidth_narrow : 0 < narrowVariance ∧ halfWidth (1 / 2) narrowVariance = 1 / 2 := by
  have hscore : 0 < score (1 / 2) := score_pos (by norm_num) (by norm_num)
  refine ⟨pow_pos (by positivity) 2, ?_⟩
  rw [halfWidth_eq, narrowVariance, Real.sqrt_sq (by positivity)]
  field_simp

theorem surrounds_iff_reciprocal : 0 < narrowVariance ∧
    ∃ r, reciprocal.predictGlmInterval (variance narrowVariance) (1 / 2) = .ok r ∧
      reciprocal.Surrounds (variance narrowVariance) (1 / 2) r := by
  have hscale := linkScale_reciprocal narrowVariance (show (0 : ℝ) < 1 / 2 by norm_num)
    (by norm_num)
  have hcall := congrArg (Except.map reciprocal.quote) hscale
  refine ⟨halfWidth_narrow.1, _, hcall, (surrounds_iff hcall).mpr ?_⟩
  intro _ i
  rw [clearOfPole_iff hscale]
  rintro eta half hrow -
  obtain ⟨rfl, rfl⟩ := Prod.mk.inj (Option.some.inj hrow)
  rw [halfWidth_narrow.2]
  norm_num

/-- An interval wider than the predictor is far from zero leaves the prediction out. -/
theorem not_surrounds_reciprocal : (∀ x, 0 ≤ quadratic [[100]] [x]) ∧
    ∃ r, reciprocal.predictGlmInterval (variance 100) (95 / 100) = .ok r ∧
      ∃ lower upper, r.Holds 0 lower 1 upper ∧ upper < 1 ∧
        ¬ reciprocal.Surrounds (variance 100) (95 / 100) r := by
  have hscale := linkScale_reciprocal 100 (show (0 : ℝ) < 95 / 100 by norm_num)
    (by norm_num)
  have hcall := congrArg (Except.map reciprocal.quote) hscale
  have hscore : 1 / 4 < score (95 / 100) :=
    lt_normalQuantile (by norm_num) (by norm_num) (by norm_num)
  have hwide : 1 < halfWidth (95 / 100) 100 := by
    have hroot : √(100 : ℝ) = 10 := by
      rw [show (100 : ℝ) = 10 ^ 2 by norm_num]
      exact Real.sqrt_sq (by norm_num)
    rw [halfWidth_eq, hroot]
    linarith
  refine ⟨fun x => ?_, _, hcall, ?_⟩
  · rw [quadratic_variance]
    positivity
  have hholds : (reciprocal.quote fun _ => some (1, halfWidth (95 / 100) 100)).Holds 0 _ 1 _ :=
    quote_holds.mpr ⟨1, halfWidth (95 / 100) 100, rfl,
      fun _ => ⟨one_ne_zero, by linarith, by linarith⟩, by simp [reciprocal, Link.mean], rfl, rfl⟩
  have hupper : max (Link.inverse.mean (1 - halfWidth (95 / 100) 100))
      (Link.inverse.mean (1 + halfWidth (95 / 100) 100)) < 1 := by
    apply max_lt
    · exact (one_div_neg.mpr (by linarith)).trans one_pos
    · rw [Link.mean, div_lt_one (by linarith)]
      linarith
  exact ⟨_, _, hholds, hupper, fun h => absurd (h.around 0 _ _ _ hholds).2 (not_le.mpr hupper)⟩

end Scored

end GiPricing.Factors
