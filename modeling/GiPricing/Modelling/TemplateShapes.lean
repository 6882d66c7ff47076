import GiPricing.Modelling.TemplateDerivatives

/-! # The shapes of the objective templates

What a compiled objective has of its loss, whatever its author has chosen: derivatives, the
Gauss-Newton hessian of a least-squares loss, and the minimum of a loss that targets the mean.
-/

namespace GiPricing.Modelling

open Numeric Filter Topology

attribute [local instance] Numerals.two Numerals.hundred

variable {y f : ℝ} {p : Params}

/-! ## The parameters -/

/-- What the arithmetic of a template assumes of its parameters. -/
def InRange (p : Params) : ObjectiveTemplate → Prop
  | .poisson | .gamma => True
  | .tweedie => 1 < p "p" ∧ p "p" < 2
  | .cappedGamma => 0 < p "cap"
  | .splicedSeverity => 0 < p "threshold" ∧ 0 < p "tail_shape"
  | .asymmetricSquared | .asymmetricPoisson => 0 < p "w_under" ∧ 0 < p "w_over"
  | .huber | .pseudoHuber => 0 < p "delta"
  | .quantile => 0 < p "alpha" ∧ p "alpha" < 1
  | .zeroInflatedPoisson => 0 < p "pi" ∧ p "pi" < 1
  | .focalBinomial => 0 ≤ p "gamma"

theorem default_checks (template : ObjectiveTemplate) :
    ∀ parameter ∈ templateParameters template, ∀ value ∈ parameter.default,
      parameter.Check value := by
  cases template <;> simp [templateParameters, TemplateParameter.Check] <;> norm_num

theorem find?_templateParameters (template : ObjectiveTemplate) :
    ∀ parameter ∈ templateParameters template,
      (templateParameters template).find? (fun q => q.name = parameter.name) = some parameter := by
  cases template <;> simp [templateParameters]

theorem resolve_checks {template : ObjectiveTemplate} {params : String → Option ℝ}
    (h : ParametersAreTheTemplatesOwn template params) {parameter : TemplateParameter}
    (hmem : parameter ∈ templateParameters template) :
    parameter.Check (resolveTemplateParams template params parameter.name) := by
  have hown := h.2 parameter hmem
  rw [resolveTemplateParams, find?_templateParameters template parameter hmem]
  cases hchosen : params parameter.name with
  | some value =>
    rw [hchosen] at hown
    exact hown
  | none =>
    rw [hchosen] at hown
    obtain ⟨value, hvalue⟩ := Option.isSome_iff_exists.mp hown
    simp only [hvalue, Option.none_or, Option.getD_some]
    exact default_checks template parameter hmem value hvalue

theorem inRange_resolve {template : ObjectiveTemplate} {params : String → Option ℝ}
    (h : ParametersAreTheTemplatesOwn template params) :
    InRange (resolveTemplateParams template params) template := by
  have hcheck := fun parameter (hmem : parameter ∈ templateParameters template) =>
    resolve_checks h hmem
  cases template <;> simp_all [templateParameters, TemplateParameter.Check, InRange]

/-! ## Least-squares losses -/

/-- The loss is one of the residual alone, and `gn` is its hessian but for the term that carries the
curvature of the residual. -/
def LeastSquares (loss hess gn : ℝ → ℝ → ℝ) : Prop :=
  ∃ rho slope : ℝ → ℝ, (∀ r, HasDerivAt rho (slope r) r) ∧ ∀ y f, loss y f = rho (y - mu f) ∧
    0 ≤ gn y f ∧ gn y f = hess y f - slope (y - mu f) * deriv (deriv fun f => y - mu f) f

theorem residual_curvature (y f : ℝ) : deriv (deriv fun f => y - mu f) f = -mu f := by
  have hd : deriv (fun f => y - mu f) = fun f => -mu f :=
    funext fun z => (hasDerivAt_residual y z).deriv
  rw [hd]
  exact (hasDerivAt_mu f).fun_neg.deriv

theorem asymWeight_pos (hu : 0 < p "w_under") (ho : 0 < p "w_over") (y f : ℝ) :
    0 < asymWeight y f p := by
  unfold asymWeight
  split_ifs
  · exact hu
  · exact ho

theorem hasDerivAt_asymSq (a b r : ℝ) :
    HasDerivAt (fun r : ℝ => (if 0 < r then a else b) * r ^ 2)
      (2 * (if 0 < r then a else b) * r) r := by
  have hsq : ∀ c : ℝ, HasDerivAt (fun r : ℝ => c * r ^ 2) (2 * c * r) r := fun c => by
    apply ((hasDerivAt_pow 2 r).const_mul c).congr_deriv
    ring
  rcases eq_or_ne r 0 with rfl | hr
  · have hzero : ∀ c : ℝ, HasDerivAt (fun r : ℝ => c * r ^ 2)
        (2 * (if (0 : ℝ) < 0 then a else b) * 0) 0 := fun c => by
      apply (hasDerivAt_pow 2 (0 : ℝ)).const_mul c |>.congr_deriv
      ring
    apply hasDerivAt_of_pieces (hzero b) (hzero a)
    · exact Eventually.of_forall fun z hz => by rw [if_neg hz.not_gt]
    · refine Eventually.of_forall fun z hz => ?_
      rcases hz.eq_or_lt with rfl | hz
      · ring
      · rw [if_pos hz]
  · have hswitch : ∀ᶠ z in 𝓝 r, 0 < z ↔ 0 < r :=
      eventually_lt_iff continuousAt_const continuousAt_id hr.symm
    have h := hasDerivAt_ite hswitch (fun _ => hsq a) fun _ => hsq b
    simp only [ite_mul, mul_ite]
    exact h

theorem asymSq_leastSquares (hu : 0 < p "w_under") (ho : 0 < p "w_over") :
    LeastSquares (asymSqLoss · · p) (asymSqHess · · p) (asymSqGn · · p) := by
  refine ⟨_, _, hasDerivAt_asymSq (p "w_under") (p "w_over"), fun y f => ⟨?_, ?_, ?_⟩⟩
  · simp only [asymSqLoss, asymWeight, sub_pos]
  · have hw := asymWeight_pos hu ho y f
    unfold asymSqGn
    positivity
  · simp only [residual_curvature, sub_pos]
    rw [asymSqGn, asymSqHess, asymWeight]
    ring

noncomputable def huberRho (d r : ℝ) : ℝ := if |r| ≤ d then 0.5 * r ^ 2 else d * (|r| - 0.5 * d)

noncomputable def huberSlope (d r : ℝ) : ℝ := if |r| ≤ d then r else d * sign r

theorem hasDerivAt_half_sq (r : ℝ) : HasDerivAt (fun r : ℝ => 0.5 * r ^ 2) r r := by
  apply ((hasDerivAt_pow 2 r).const_mul 0.5).congr_deriv
  norm_num
  ring

theorem hasDerivAt_huberRho {d : ℝ} (hd : 0 < d) (r : ℝ) :
    HasDerivAt (huberRho d) (huberSlope d r) r := by
  have habs : Continuous fun z : ℝ => |z| := continuous_abs
  have hfar : r ≠ 0 → HasDerivAt (fun z => d * (|z| - 0.5 * d)) (d * sign r) r := fun h0 =>
    ((hasDerivAt_abs_sign h0).sub_const _).const_mul d
  by_cases hr : |r| = d
  · have h0 : r ≠ 0 := by
      rintro rfl
      rw [abs_zero] at hr
      exact hd.ne hr
    have hslope : d * sign r = r := by
      unfold sign
      split_ifs with hneg hpos
      · rw [← hr, abs_of_neg hneg]
        ring
      · rw [← hr, abs_of_pos hpos, mul_one]
      · exact absurd (le_antisymm (not_lt.mp hpos) (not_lt.mp hneg)) h0
    rw [huberSlope, if_pos hr.le]
    have hquad := hasDerivAt_half_sq r
    have hlin := hslope ▸ hfar h0
    -- both pieces agree where the residual is `delta`, to first order
    have hmeet : ∀ z : ℝ, d ≤ |z| → huberRho d z = d * (|z| - 0.5 * d) := by
      intro z hz
      unfold huberRho
      split_ifs with hle
      · rw [← sq_abs, le_antisymm hle hz]
        ring
      · rfl
    rcases h0.lt_or_gt with hneg | hpos
    · rw [abs_of_neg hneg] at hr
      apply hasDerivAt_of_pieces hlin hquad
      · filter_upwards [eventually_lt_nhds hneg] with z hz hle
        exact hmeet z (by rw [abs_of_neg hz]; linarith)
      · filter_upwards [eventually_lt_nhds hneg] with z hz hle
        exact if_pos (by rw [abs_of_neg hz]; linarith)
    · rw [abs_of_pos hpos] at hr
      apply hasDerivAt_of_pieces hquad hlin
      · filter_upwards [eventually_gt_nhds hpos] with z hz hle
        exact if_pos (by rw [abs_of_pos hz]; linarith)
      · filter_upwards [eventually_gt_nhds hpos] with z hz hle
        exact hmeet z (by rw [abs_of_pos hz]; linarith)
  · apply hasDerivAt_ite (eventually_le_iff habs.continuousAt continuousAt_const hr)
    · exact fun _ => hasDerivAt_half_sq r
    · intro hlt
      apply hfar
      rintro rfl
      rw [abs_zero] at hlt
      exact hlt hd.le

theorem huber_leastSquares (hd : 0 < p "delta") :
    LeastSquares (huberLoss · · p) (huberHess · · p) (huberGn · · p) := by
  refine ⟨_, _, hasDerivAt_huberRho hd, fun y f => ⟨rfl, ?_, ?_⟩⟩
  · change 0 ≤ huberGn y f p
    unfold huberGn
    split_ifs
    · exact sq_nonneg _
    · exact le_rfl
  · change huberGn y f p = huberHess y f p - huberSlope (p "delta") (y - mu f) * _
    rw [residual_curvature, huberGn, huberHess, huberSlope]
    split_ifs <;> ring

noncomputable def pseudoHuberRho (d r : ℝ) : ℝ := d ^ 2 * (√(1 + (r / d) ^ 2) - 1)

theorem hasDerivAt_pseudoHuberRho {d : ℝ} (hd : 0 < d) (r : ℝ) :
    HasDerivAt (pseudoHuberRho d) (r / √(1 + (r / d) ^ 2)) r := by
  have hpos : 0 < 1 + (r / d) ^ 2 := by positivity
  have hs : 0 < √(1 + (r / d) ^ 2) := Real.sqrt_pos.mpr hpos
  have hin := (((hasDerivAt_id r).div_const d).fun_pow 2).const_add 1
  apply (((hin.sqrt hpos.ne').sub_const 1).const_mul (d ^ 2)).congr_deriv
  simp only [id_eq, Nat.cast_ofNat, Nat.add_one_sub_one, pow_one]
  field_simp

theorem pseudoHuber_leastSquares (hd : 0 < p "delta") :
    LeastSquares (pseudoHuberLoss · · p) (pseudoHuberHess · · p) (pseudoHuberGn · · p) := by
  refine ⟨_, _, hasDerivAt_pseudoHuberRho hd, fun y f => ⟨pseudoHuberLoss_eq hd y f, ?_, ?_⟩⟩
  · have hs := phS_pos y f p
    unfold pseudoHuberGn
    positivity
  · have hs := phS_pos y f p
    have hsq : p "delta" ^ 2 * phS y f p ^ 2 = p "delta" ^ 2 + (y - mu f) ^ 2 := by
      rw [phS_sq]
      field_simp
    change pseudoHuberGn y f p = pseudoHuberHess y f p - (y - mu f) / phS y f p * _
    rw [residual_curvature, pseudoHuberGn, pseudoHuberHess]
    field_simp
    linear_combination -mu f ^ 2 * hsq

/-! ## The minimum -/

/-- The templates that target the mean. -/
def TargetsMean : ObjectiveTemplate → Prop
  | .poisson | .gamma | .tweedie | .asymmetricSquared | .asymmetricPoisson | .huber
  | .pseudoHuber => True
  | .cappedGamma | .splicedSeverity | .quantile | .zeroInflatedPoisson | .focalBinomial => False

section Minimum

variable {m : ℝ}

theorem mu_eq_mul (m f : ℝ) : mu f = mu m * Real.exp (f - m) := by
  rw [mu, mu, ← Real.exp_add, add_sub_cancel]

theorem residual_ne (h : f ≠ m) : mu m - mu f ≠ 0 :=
  sub_ne_zero.mpr fun heq => h (Real.exp_injective heq).symm

theorem poisson_lt (h : f ≠ m) : poissonLoss (mu m) m p < poissonLoss (mu m) f p := by
  have hexp := Real.add_one_lt_exp (sub_ne_zero.mpr h)
  rw [poissonLoss, poissonLoss, mu_eq_mul m f]
  nlinarith [mu_pos m]

theorem gamma_lt (h : f ≠ m) : gammaLoss (mu m) m p < gammaLoss (mu m) f p := by
  have hexp := Real.add_one_lt_exp (sub_ne_zero.mpr h.symm)
  have hat : ∀ z, gammaLoss (mu m) z p = Real.exp (m - z) + z := by
    intro z
    rw [gammaLoss, mu, ← Real.exp_add, sub_eq_add_neg]
  rw [hat, hat, sub_self, Real.exp_zero]
  linarith

theorem tweedie_lt (h1 : 1 < p "p") (h2 : p "p" < 2) (h : f ≠ m) :
    tweedieLoss (mu m) m p < tweedieLoss (mu m) f p := by
  set q := p "p" with hq
  have hq1 : 0 < q - 1 := by linarith
  have hq2 : 0 < 2 - q := by linarith
  have hd : f - m ≠ 0 := sub_ne_zero.mpr h
  have hat : ∀ z, tweedieLoss (mu m) z p = Real.exp ((2 - q) * m) *
      (Real.exp ((1 - q) * (z - m)) / (q - 1) + Real.exp ((2 - q) * (z - m)) / (2 - q)) := by
    intro z
    have ha : mu m * Real.exp ((1 - q) * z) =
        Real.exp ((2 - q) * m) * Real.exp ((1 - q) * (z - m)) := by
      rw [mu, ← Real.exp_add, ← Real.exp_add]
      congr 1
      ring
    have hb : Real.exp ((2 - q) * z) =
        Real.exp ((2 - q) * m) * Real.exp ((2 - q) * (z - m)) := by
      rw [← Real.exp_add]
      congr 1
      ring
    have hneg : 1 - q = -(q - 1) := by ring
    rw [tweedieLoss, ← hq, neg_mul, ha, hb, hneg, neg_div_neg_eq]
    ring
  rw [hat, hat, sub_self, mul_zero, mul_zero, Real.exp_zero]
  apply mul_lt_mul_of_pos_left _ (Real.exp_pos _)
  have ha := Real.add_one_lt_exp (mul_ne_zero (by linarith : 1 - q ≠ 0) hd)
  have hb := Real.add_one_lt_exp (mul_ne_zero hq2.ne' hd)
  calc 1 / (q - 1) + 1 / (2 - q)
      = ((1 - q) * (f - m) + 1) / (q - 1) + ((2 - q) * (f - m) + 1) / (2 - q) := by
        field_simp
        ring
    _ < _ := add_lt_add (div_lt_div_of_pos_right ha hq1) (div_lt_div_of_pos_right hb hq2)

theorem asymSq_lt (hu : 0 < p "w_under") (ho : 0 < p "w_over") (h : f ≠ m) :
    asymSqLoss (mu m) m p < asymSqLoss (mu m) f p := by
  have hw := asymWeight_pos hu ho (mu m) f
  have hr := residual_ne h
  rw [asymSqLoss, asymSqLoss, sub_self, zero_pow two_ne_zero, mul_zero]
  positivity

theorem asymPois_lt (hu : 0 < p "w_under") (ho : 0 < p "w_over") (h : f ≠ m) :
    asymPoisLoss (mu m) m p < asymPoisLoss (mu m) f p := by
  have hat : ∀ z, asymPoisLoss (mu m) z p =
      asymWeight (mu m) z p * 2 * (mu m * (Real.exp (z - m) - (z - m + 1))) := by
    intro z
    rw [asymPoisLoss, if_pos (mu_pos m), mu_eq_mul m z, mu, Real.log_exp]
    ring
  have hexp := Real.add_one_lt_exp (sub_ne_zero.mpr h)
  have hw := asymWeight_pos hu ho (mu m) f
  have hm := mu_pos m
  rw [hat, hat, sub_self, Real.exp_zero, zero_add, sub_self, mul_zero, mul_zero]
  have hgap : 0 < Real.exp (f - m) - (f - m + 1) := sub_pos.mpr hexp
  positivity

theorem huber_lt (hd : 0 < p "delta") (h : f ≠ m) :
    huberLoss (mu m) m p < huberLoss (mu m) f p := by
  have hr := abs_pos.mpr (residual_ne h)
  have hzero : huberLoss (mu m) m p = 0 := by
    rw [huberLoss, sub_self, abs_zero, if_pos hd.le]
    ring
  rw [hzero, huberLoss]
  split_ifs with hle
  · have hne := residual_ne h
    positivity
  · apply mul_pos hd
    linarith

theorem pseudoHuber_lt (h : f ≠ m) :
    pseudoHuberLoss (mu m) m p < pseudoHuberLoss (mu m) f p := by
  have hs := phS_pos (mu m) f p
  have hr := residual_ne h
  rw [pseudoHuberLoss, pseudoHuberLoss, sub_self, zero_pow two_ne_zero, zero_div]
  positivity

end Minimum

/-! ## Every template -/

/-- The score is not one at which the template's branch flips, or its probability is clipped. -/
def Regular (template : ObjectiveTemplate) (p : Params) (y f : ℝ) : Prop :=
  (∀ boundaries ∈ (templates template).f_boundaries, ∀ b ∈ boundaries y p, b ≠ f) ∧
    (template = .focalBinomial → ClipInactive f)

section Templates

variable {template : ObjectiveTemplate}

theorem continuous_loss (hr : InRange p template) (y : ℝ) :
    Continuous fun f => (templates template).loss y f p := by
  have hsmooth : ∀ {g g' : ℝ → ℝ}, (∀ f, HasDerivAt g (g' f) f) → Continuous g := fun hd =>
    continuous_iff_continuousAt.mpr fun f => (hd f).continuousAt
  cases template with
  | poisson => exact hsmooth (poissonLoss_deriv y · p)
  | gamma => exact hsmooth (gammaLoss_deriv y · p)
  | tweedie => exact hsmooth (tweedieLoss_deriv hr.1 hr.2 y ·)
  | cappedGamma => exact hsmooth (gammaLoss_deriv (capped y p) · p)
  | splicedSeverity => exact hsmooth (splicedLoss_deriv y · p)
  | asymmetricSquared => exact continuous_asymSqLoss y p
  | asymmetricPoisson => exact continuous_asymPoisLoss y p
  | huber => exact continuous_huberLoss y p
  | pseudoHuber => exact hsmooth (pseudoHuberLoss_deriv hr y ·)
  | quantile => exact continuous_quantileLoss y p
  | zeroInflatedPoisson => exact hsmooth (zipLoss_deriv hr.1 hr.2 y ·)
  | focalBinomial => exact continuous_focalLoss y p

theorem loss_deriv (hr : InRange p template) (hy : y ∈ YDomain template)
    (h : Regular template p y f) :
    HasDerivAt (fun f => (templates template).loss y f p) ((templates template).grad y f p) f := by
  cases template with
  | poisson => exact poissonLoss_deriv y f p
  | gamma => exact gammaLoss_deriv y f p
  | tweedie => exact tweedieLoss_deriv hr.1 hr.2 y f
  | cappedGamma => exact gammaLoss_deriv (capped y p) f p
  | splicedSeverity => exact splicedLoss_deriv y f p
  | asymmetricSquared => exact asymSqLoss_deriv (mu_ne (h.1 _ rfl))
  | asymmetricPoisson => exact asymPoisLoss_deriv hy (mu_ne (h.1 _ rfl))
  | huber => exact huberLoss_deriv hr (abs_residual_ne hr hy (h.1 _ rfl))
  | pseudoHuber => exact pseudoHuberLoss_deriv hr y f
  | quantile => exact quantileLoss_deriv (mu_ne (h.1 _ rfl))
  | zeroInflatedPoisson => exact zipLoss_deriv hr.1 hr.2 y f
  | focalBinomial => exact focalLoss_deriv (h.2 rfl) y p

theorem grad_deriv (hr : InRange p template) (hy : y ∈ YDomain template)
    (h : Regular template p y f) :
    HasDerivAt (fun f => (templates template).grad y f p) ((templates template).hess y f p) f := by
  cases template with
  | poisson => exact poissonGrad_deriv y f p
  | gamma => exact gammaGrad_deriv y f p
  | tweedie => exact tweedieGrad_deriv y f p
  | cappedGamma => exact gammaGrad_deriv (capped y p) f p
  | splicedSeverity => exact splicedGrad_deriv y f p
  | asymmetricSquared => exact asymSqGrad_deriv (mu_ne (h.1 _ rfl))
  | asymmetricPoisson => exact asymPoisGrad_deriv (mu_ne (h.1 _ rfl))
  | huber => exact huberGrad_deriv hr (abs_residual_ne hr hy (h.1 _ rfl))
  | pseudoHuber => exact pseudoHuberGrad_deriv hr y f
  | quantile => exact quantileGrad_deriv (mu_ne (h.1 _ rfl))
  | zeroInflatedPoisson => exact zipGrad_deriv hr.1 hr.2 y f
  | focalBinomial => exact focalGrad_deriv (h.2 rfl) y p

theorem gauss_newton_leastSquares (hr : InRange p template) {gn : ℝ → ℝ → Params → ℝ}
    (h : (templates template).gauss_newton = some gn) :
    LeastSquares ((templates template).loss · · p) ((templates template).hess · · p)
      (gn · · p) := by
  cases template with
  | asymmetricSquared =>
    cases h
    exact asymSq_leastSquares hr.1 hr.2
  | huber =>
    cases h
    exact huber_leastSquares hr
  | pseudoHuber =>
    cases h
    exact pseudoHuber_leastSquares hr
  | _ => cases h

theorem loss_lt (hr : InRange p template) (ht : TargetsMean template) {m : ℝ} (h : f ≠ m) :
    (templates template).loss (mu m) m p < (templates template).loss (mu m) f p := by
  cases template with
  | poisson => exact poisson_lt (p := p) h
  | gamma => exact gamma_lt (p := p) h
  | tweedie => exact tweedie_lt hr.1 hr.2 h
  | asymmetricSquared => exact asymSq_lt hr.1 hr.2 h
  | asymmetricPoisson => exact asymPois_lt hr.1 hr.2 h
  | huber => exact huber_lt hr h
  | pseudoHuber => exact pseudoHuber_lt h
  | _ => exact ht.elim

end Templates

namespace TemplateObjective

variable (o : TemplateObjective)

theorem stabilise_pos {y f w h : ℝ} (hs : o.stabilise y f w = some h) : 0 < h := by
  unfold stabilise at hs
  split at hs
  · obtain ⟨gn, -, rfl⟩ := Option.map_eq_some_iff.mp hs
    exact lt_max_of_lt_right o.min_pos
  · cases hs
    exact lt_max_of_lt_right o.min_pos
  · cases hs
    exact lt_max_of_lt_right o.min_pos

/-- The derivatives of every compiled objective are those of its loss, and the least-squares and the
mean-targeting templates have the shapes that are said of them. The hessian that a booster is given
is positive. -/
theorem derivatives_of_loss {y : ℝ} (hy : y ∈ YDomain o.template) (w : ℝ) :
    (Continuous fun f => o.loss y f w) ∧
      (∀ f, Regular o.template o.resolved y f →
        HasDerivAt (fun f => o.loss y f w) (o.grad y f w) f ∧
          HasDerivAt (fun f => o.grad y f w) (o.hess y f w) f) ∧
      (∀ gn, o.tpl.gauss_newton = some gn → LeastSquares (o.tpl.loss · · o.resolved)
        (o.tpl.hess · · o.resolved) (gn · · o.resolved)) ∧
      (TargetsMean o.template → 0 < y → ∃ m, mu m = y ∧
        ∀ f, f ≠ m → o.tpl.loss y m o.resolved < o.tpl.loss y f o.resolved) ∧
      ∀ f h, o.stabilise y f w = some h → 0 < h := by
  have hr : InRange o.resolved o.template := inRange_resolve o.own
  refine ⟨?_, fun f h => ⟨?_, ?_⟩, fun gn hgn => ?_, fun ht hpos => ?_, fun f h => o.stabilise_pos⟩
  · exact (continuous_loss hr y).const_mul w
  · exact (loss_deriv hr hy h).const_mul w
  · exact (grad_deriv hr hy h).const_mul w
  · exact gauss_newton_leastSquares hr hgn
  · have hm : mu (Real.log y) = y := Real.exp_log hpos
    refine ⟨Real.log y, hm, fun f hf => ?_⟩
    have hlt := loss_lt hr ht hf
    rwa [hm] at hlt

/-- A Huber loss that switches at a hundred minor units. -/
noncomputable def huberAt100 : TemplateObjective where
  template := .huber
  params name := if name = "delta" then some 100 else none
  hessian_strategy := .gaussNewton
  hessian_min := 1e-6
  own := by
    simp only [ParametersAreTheTemplatesOwn, templateParameters, TemplateParameter.Check]
    refine ⟨fun name h => ?_, ?_⟩
    · by_cases hn : name = "delta"
      · exact ⟨_, List.mem_singleton_self _, hn.symm⟩
      · rw [if_neg hn] at h
        cases h
    · simp only [List.mem_singleton, forall_eq, if_true]
      exact ⟨fun _ => ⟨100, by norm_num⟩, by norm_num, by simp⟩
  min_pos := by norm_num

theorem derivatives_huberAt100 :
    (250 : ℝ) ∈ YDomain huberAt100.template ∧ (Continuous fun f => huberAt100.loss 250 f 2) ∧
      ∃ m, mu m = 250 ∧ ∀ f, f ≠ m →
        huberAt100.tpl.loss 250 m huberAt100.resolved <
          huberAt100.tpl.loss 250 f huberAt100.resolved := by
  have hy : (250 : ℝ) ∈ YDomain huberAt100.template := by
    change (0 : ℝ) ≤ 250
    norm_num
  have h := huberAt100.derivatives_of_loss hy 2
  exact ⟨hy, h.1, h.2.2.2.1 trivial (by norm_num)⟩

end TemplateObjective

end GiPricing.Modelling
