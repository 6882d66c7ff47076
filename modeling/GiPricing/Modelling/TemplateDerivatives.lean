import GiPricing.Modelling.ObjectiveTemplates
import GiPricing.Numeric.Piecewise
import Mathlib.Analysis.Calculus.Deriv.Abs
import Mathlib.Analysis.SpecialFunctions.ExpDeriv
import Mathlib.Analysis.SpecialFunctions.Log.Deriv
import Mathlib.Analysis.SpecialFunctions.Pow.Deriv
import Mathlib.Analysis.SpecialFunctions.Sigmoid
import Mathlib.Analysis.SpecialFunctions.Sqrt

/-! # The derivatives of the objective templates

Each template's gradient is the derivative of its loss in the score, and its hessian that of its
gradient, away from the scores at which the template says that its branch flips.
-/

namespace GiPricing.Modelling

open Numeric Filter Topology

variable {y f : ℝ} {p : Params}

/-! ## The mean and the residual -/

theorem mu_pos (f : ℝ) : 0 < mu f := Real.exp_pos f

theorem hasDerivAt_mu (f : ℝ) : HasDerivAt mu (mu f) f := Real.hasDerivAt_exp f

@[fun_prop]
theorem continuous_mu : Continuous mu := Real.continuous_exp

theorem hasDerivAt_residual (y f : ℝ) : HasDerivAt (fun f => y - mu f) (-mu f) f :=
  (hasDerivAt_mu f).const_sub y

theorem mu_eq_iff (hy : 0 < y) : mu f = y ↔ f = Real.log y := by
  unfold mu
  constructor
  · rintro rfl
    rw [Real.log_exp]
  · rintro rfl
    rw [Real.exp_log hy]

theorem mu_ne (h : ∀ b ∈ logYBoundary y p, b ≠ f) : mu f ≠ y := by
  intro hf
  have hy : 0 < y := hf ▸ mu_pos f
  apply h (Real.log y : WithBot ℝ)
  · rw [logYBoundary, if_pos hy]
    exact List.mem_singleton_self _
  · rw [(mu_eq_iff hy).mp hf]

/-! ## Exponential losses -/

theorem poissonLoss_deriv (y f : ℝ) (p : Params) :
    HasDerivAt (fun f => poissonLoss y f p) (poissonGrad y f p) f :=
  ((hasDerivAt_mu f).sub ((hasDerivAt_id f).const_mul y)).congr_deriv (by simp [poissonGrad])

theorem poissonGrad_deriv (y f : ℝ) (p : Params) :
    HasDerivAt (fun f => poissonGrad y f p) (poissonHess y f p) f :=
  (hasDerivAt_mu f).sub_const y

theorem hasDerivAt_exp_neg (f : ℝ) : HasDerivAt (fun f => Real.exp (-f)) (-Real.exp (-f)) f :=
  (hasDerivAt_id f).neg.exp.congr_deriv (by simp)

theorem gammaLoss_deriv (y f : ℝ) (p : Params) :
    HasDerivAt (fun f => gammaLoss y f p) (gammaGrad y f p) f := by
  apply (((hasDerivAt_exp_neg f).const_mul y).add (hasDerivAt_id f)).congr_deriv
  rw [gammaGrad]
  ring

theorem gammaGrad_deriv (y f : ℝ) (p : Params) :
    HasDerivAt (fun f => gammaGrad y f p) (gammaHess y f p) f := by
  apply (((hasDerivAt_exp_neg f).const_mul y).const_sub 1).congr_deriv
  rw [gammaHess]
  ring

theorem hasDerivAt_exp_mul (a f : ℝ) :
    HasDerivAt (fun f => Real.exp (a * f)) (a * Real.exp (a * f)) f := by
  apply ((hasDerivAt_id f).const_mul a).exp.congr_deriv
  simp only [id_eq]
  ring

theorem tweedieLoss_deriv (h1 : 1 < p "p") (h2 : p "p" < 2) (y f : ℝ) :
    HasDerivAt (fun f => tweedieLoss y f p) (tweedieGrad y f p) f := by
  apply ((((hasDerivAt_exp_mul (1 - p "p") f).const_mul (-y)).div_const (1 - p "p")).add
    ((hasDerivAt_exp_mul (2 - p "p") f).div_const (2 - p "p"))).congr_deriv
  have hne : 1 - p "p" ≠ 0 := by linarith
  have hne' : 2 - p "p" ≠ 0 := by linarith
  rw [tweedieGrad]
  field_simp

theorem tweedieGrad_deriv (y f : ℝ) (p : Params) :
    HasDerivAt (fun f => tweedieGrad y f p) (tweedieHess y f p) f := by
  apply (((hasDerivAt_exp_mul (1 - p "p") f).const_mul (-y)).add
    (hasDerivAt_exp_mul (2 - p "p") f)).congr_deriv
  rw [tweedieHess]
  ring

theorem splicedLoss_deriv (y f : ℝ) (p : Params) :
    HasDerivAt (fun f => splicedLoss y f p) (splicedGrad y f p) f := by
  unfold splicedLoss splicedGrad
  split_ifs
  · apply ((((hasDerivAt_id f).const_mul (-p "tail_shape")).add_const _).sub_const _).congr_deriv
    rw [mul_one]
  · exact gammaLoss_deriv y f p

theorem splicedGrad_deriv (y f : ℝ) (p : Params) :
    HasDerivAt (fun f => splicedGrad y f p) (splicedHess y f p) f := by
  unfold splicedGrad splicedHess
  split_ifs
  · exact hasDerivAt_const f _
  · exact gammaGrad_deriv y f p

/-! ## The asymmetric losses -/

theorem hasDerivAt_asymWeight (h : mu f ≠ y) :
    HasDerivAt (fun f => asymWeight y f p) 0 f := by
  have hswitch := eventually_lt_iff continuous_mu.continuousAt (continuousAt_const (y := y)) h
  apply (hasDerivAt_ite hswitch (fun _ => hasDerivAt_const f (p "w_under"))
    fun _ => hasDerivAt_const f (p "w_over")).congr_deriv
  exact ite_self 0

theorem asymSqLoss_deriv (h : mu f ≠ y) :
    HasDerivAt (fun f => asymSqLoss y f p) (asymSqGrad y f p) f := by
  apply ((hasDerivAt_asymWeight h).mul ((hasDerivAt_residual y f).pow 2)).congr_deriv
  rw [asymSqGrad]
  ring

theorem asymSqGrad_deriv (h : mu f ≠ y) :
    HasDerivAt (fun f => asymSqGrad y f p) (asymSqHess y f p) f := by
  apply ((((hasDerivAt_asymWeight h).const_mul 2).fun_mul ((hasDerivAt_mu f).sub_const y)).fun_mul
    (hasDerivAt_mu f)).congr_deriv
  rw [asymSqHess]
  ring

theorem asymPoisLoss_deriv (hy : 0 ≤ y) (h : mu f ≠ y) :
    HasDerivAt (fun f => asymPoisLoss y f p) (asymPoisGrad y f p) f := by
  have hcross : HasDerivAt (fun f => if 0 < y then y * (Real.log y - f) else 0) (-y) f := by
    split_ifs with hpos
    · apply (((hasDerivAt_id f).const_sub (Real.log y)).const_mul y).congr_deriv
      ring
    · rw [le_antisymm (not_lt.mp hpos) hy, neg_zero]
      exact hasDerivAt_const f 0
  apply (((hasDerivAt_asymWeight h).mul_const 2).fun_mul
    ((hcross.sub_const y).fun_add (hasDerivAt_mu f))).congr_deriv
  rw [asymPoisGrad]
  ring

theorem asymPoisGrad_deriv (h : mu f ≠ y) :
    HasDerivAt (fun f => asymPoisGrad y f p) (asymPoisHess y f p) f := by
  apply (((hasDerivAt_asymWeight h).mul_const 2).fun_mul
    ((hasDerivAt_mu f).sub_const y)).congr_deriv
  rw [asymPoisHess]
  ring

theorem hasDerivAt_pinballWeight (h : mu f ≠ y) :
    HasDerivAt (fun f => pinballWeight y f p) 0 f := by
  have hswitch : ∀ᶠ z in 𝓝 f, 0 < y - mu z ↔ 0 < y - mu f :=
    eventually_lt_iff continuousAt_const (hasDerivAt_residual y f).continuousAt
      (sub_ne_zero.mpr h.symm).symm
  apply (hasDerivAt_ite hswitch (fun _ => hasDerivAt_const f (p "alpha"))
    fun _ => hasDerivAt_const f (p "alpha" - 1)).congr_deriv
  exact ite_self 0

theorem quantileLoss_deriv (h : mu f ≠ y) :
    HasDerivAt (fun f => quantileLoss y f p) (quantileGrad y f p) f := by
  apply ((hasDerivAt_pinballWeight h).fun_mul (hasDerivAt_residual y f)).congr_deriv
  rw [quantileGrad]
  ring

theorem quantileGrad_deriv (h : mu f ≠ y) :
    HasDerivAt (fun f => quantileGrad y f p) (quantileHess y f p) f := by
  apply ((hasDerivAt_pinballWeight h).fun_neg.fun_mul (hasDerivAt_mu f)).congr_deriv
  rw [quantileHess]
  ring

/-! ## Huber and pseudo-Huber -/

theorem hasDerivAt_abs_sign {r : ℝ} (h : r ≠ 0) : HasDerivAt (fun r => |r|) (sign r) r := by
  rcases h.lt_or_gt with hneg | hpos
  · rw [sign, if_pos hneg]
    exact hasDerivAt_abs_neg hneg
  · rw [sign, if_neg hpos.not_gt, if_pos hpos]
    exact hasDerivAt_abs_pos hpos

theorem hasDerivAt_sign {r : ℝ} (h : r ≠ 0) : HasDerivAt sign 0 r := by
  have hneg : ∀ᶠ z in 𝓝 r, z < 0 ↔ r < 0 :=
    eventually_lt_iff continuousAt_id continuousAt_const h
  have hpos : ∀ᶠ z in 𝓝 r, 0 < z ↔ 0 < r :=
    eventually_lt_iff continuousAt_const continuousAt_id h.symm
  apply (hasDerivAt_ite hneg (fun _ => hasDerivAt_const r (-1)) fun _ => hasDerivAt_ite hpos
    (fun _ => hasDerivAt_const r 1) fun _ => hasDerivAt_const r 0).congr_deriv
  rw [ite_self, ite_self]

theorem abs_residual_ne (hd : 0 < p "delta") (hy : 0 ≤ y)
    (h : ∀ b ∈ huberBoundaries y p, b ≠ f) : |y - mu f| ≠ p "delta" := by
  intro habs
  rcases abs_eq hd.le |>.mp habs with hr | hr
  · have hm : mu f = y - p "delta" := by linarith
    have hpos : 0 < y - p "delta" := hm ▸ mu_pos f
    apply h (Real.log (y - p "delta") : WithBot ℝ)
    · rw [huberBoundaries, if_pos hpos]
      exact List.mem_cons_self
    · rw [(mu_eq_iff hpos).mp hm]
  · have hm : mu f = y + p "delta" := by linarith
    apply h (Real.log (y + p "delta") : WithBot ℝ)
    · exact List.mem_cons_of_mem _ (List.mem_singleton_self _)
    · rw [(mu_eq_iff (by linarith)).mp hm]

theorem eventually_huber (h : |y - mu f| ≠ p "delta") :
    ∀ᶠ z in 𝓝 f, |y - mu z| ≤ p "delta" ↔ |y - mu f| ≤ p "delta" :=
  eventually_le_iff (hasDerivAt_residual y f).continuousAt.abs continuousAt_const h

theorem residual_ne_zero (hd : 0 < p "delta") (h : ¬ |y - mu f| ≤ p "delta") : y - mu f ≠ 0 := by
  intro h0
  rw [h0, abs_zero] at h
  exact h hd.le

theorem huberLoss_deriv (hd : 0 < p "delta") (h : |y - mu f| ≠ p "delta") :
    HasDerivAt (fun f => huberLoss y f p) (huberGrad y f p) f := by
  apply hasDerivAt_ite (eventually_huber h)
  · intro _
    apply (((hasDerivAt_residual y f).fun_pow 2).const_mul 0.5).congr_deriv
    ring
  · intro hfar
    have habs := (hasDerivAt_abs_sign (residual_ne_zero hd hfar)).comp f (hasDerivAt_residual y f)
    apply ((habs.sub_const _).const_mul (p "delta")).congr_deriv
    ring

theorem huberGrad_deriv (hd : 0 < p "delta") (h : |y - mu f| ≠ p "delta") :
    HasDerivAt (fun f => huberGrad y f p) (huberHess y f p) f := by
  apply hasDerivAt_ite (eventually_huber h)
  · intro _
    apply (((hasDerivAt_mu f).sub_const y).fun_mul (hasDerivAt_mu f)).congr_deriv
    ring
  · intro hfar
    have hsign := (hasDerivAt_sign (residual_ne_zero hd hfar)).comp f (hasDerivAt_residual y f)
    apply ((hsign.const_mul (-p "delta")).fun_mul (hasDerivAt_mu f)).congr_deriv
    simp only [Function.comp_apply]
    ring

theorem one_le_phS_sq (y f : ℝ) (p : Params) : 0 < 1 + ((y - mu f) / p "delta") ^ 2 := by
  positivity

theorem phS_sq (y f : ℝ) (p : Params) : phS y f p ^ 2 = 1 + ((y - mu f) / p "delta") ^ 2 :=
  Real.sq_sqrt (one_le_phS_sq y f p).le

theorem phS_pos (y f : ℝ) (p : Params) : 0 < phS y f p := Real.sqrt_pos.mpr (one_le_phS_sq y f p)

theorem phS_deriv (y f : ℝ) (p : Params) :
    HasDerivAt (fun f => phS y f p) (-mu f * (y - mu f) / (p "delta" ^ 2 * phS y f p)) f := by
  have hs := phS_pos y f p
  have hin := (((hasDerivAt_residual y f).div_const (p "delta")).fun_pow 2).const_add 1
  apply (hin.sqrt (one_le_phS_sq y f p).ne').congr_deriv
  change _ / (2 * phS y f p) = _
  simp only [Nat.cast_ofNat, Nat.add_one_sub_one, pow_one]
  field_simp

theorem pseudoHuberLoss_eq (hd : 0 < p "delta") (y f : ℝ) :
    pseudoHuberLoss y f p = p "delta" ^ 2 * (phS y f p - 1) := by
  have hs := phS_pos y f p
  rw [pseudoHuberLoss, div_eq_iff (by linarith)]
  calc (y - mu f) ^ 2 = p "delta" ^ 2 * ((1 + ((y - mu f) / p "delta") ^ 2) - 1) := by
        field_simp
        ring
    _ = p "delta" ^ 2 * (phS y f p - 1) * (phS y f p + 1) := by
        rw [← phS_sq]
        ring

theorem pseudoHuberLoss_deriv (hd : 0 < p "delta") (y f : ℝ) :
    HasDerivAt (fun f => pseudoHuberLoss y f p) (pseudoHuberGrad y f p) f := by
  simp only [pseudoHuberLoss_eq hd]
  have hs := phS_pos y f p
  apply (((phS_deriv y f p).sub_const 1).const_mul (p "delta" ^ 2)).congr_deriv
  rw [pseudoHuberGrad]
  field_simp

theorem pseudoHuberGrad_deriv (hd : 0 < p "delta") (y f : ℝ) :
    HasDerivAt (fun f => pseudoHuberGrad y f p) (pseudoHuberHess y f p) f := by
  have hs := phS_pos y f p
  apply (((hasDerivAt_mu f).fun_neg.fun_mul (hasDerivAt_residual y f)).fun_div (phS_deriv y f p)
    hs.ne').congr_deriv
  rw [pseudoHuberHess]
  field_simp

/-! ## Zero-inflated Poisson -/

theorem zipA_deriv (f : ℝ) (p : Params) :
    HasDerivAt (fun f => zipA f p) (-mu f * zipA f p) f := by
  apply ((hasDerivAt_mu f).fun_neg.exp.const_mul (1 - p "pi")).congr_deriv
  rw [zipA]
  ring

theorem zipD_deriv (f : ℝ) (p : Params) :
    HasDerivAt (fun f => zipD f p) (-mu f * zipA f p) f :=
  (zipA_deriv f p).const_add (p "pi")

theorem zipA_pos (h1 : p "pi" < 1) (f : ℝ) : 0 < zipA f p :=
  mul_pos (sub_pos.mpr h1) (Real.exp_pos _)

theorem zipD_pos (h0 : 0 < p "pi") (h1 : p "pi" < 1) (f : ℝ) : 0 < zipD f p :=
  add_pos h0 (zipA_pos h1 f)

theorem zipLoss_deriv (h0 : 0 < p "pi") (h1 : p "pi" < 1) (y f : ℝ) :
    HasDerivAt (fun f => zipLoss y f p) (zipGrad y f p) f := by
  unfold zipLoss zipGrad
  split_ifs with hy
  · apply ((zipD_deriv f p).log (zipD_pos h0 h1 f).ne').fun_neg.congr_deriv
    ring
  · exact (poissonLoss_deriv y f p).sub_const _

theorem zipGrad_deriv (h0 : 0 < p "pi") (h1 : p "pi" < 1) (y f : ℝ) :
    HasDerivAt (fun f => zipGrad y f p) (zipHess y f p) f := by
  unfold zipGrad zipHess
  split_ifs with hy
  · have hd := zipD_pos h0 h1 f
    apply (((hasDerivAt_mu f).fun_mul (zipA_deriv f p)).fun_div (zipD_deriv f p) hd.ne').congr_deriv
    have hpi : p "pi" = zipD f p - zipA f p := by
      rw [zipD]
      ring
    rw [hpi]
    field_simp
    ring
  · exact poissonGrad_deriv y f p

/-! ## Focal binomial -/

section Focal

variable {q g : ℝ}

theorem hasDerivAt_rpow (h : 0 < q) (g : ℝ) : HasDerivAt (fun q => q ^ g) (g * q ^ (g - 1)) q :=
  Real.hasDerivAt_rpow_const (Or.inl h.ne')

theorem hasDerivAt_one_sub_rpow (h : q < 1) (g : ℝ) :
    HasDerivAt (fun q => (1 - q) ^ g) (-(g * (1 - q) ^ (g - 1))) q := by
  have hu : HasDerivAt (fun q : ℝ => 1 - q) (-1) q := (hasDerivAt_id q).const_sub 1
  apply ((hasDerivAt_rpow (sub_pos.mpr h) g).comp q hu).congr_deriv
  ring

theorem hasDerivAt_log_one_sub (h : q < 1) :
    HasDerivAt (fun q => Real.log (1 - q)) (-(1 / (1 - q))) q := by
  apply (((hasDerivAt_id q).const_sub 1).log (sub_pos.mpr h).ne').congr_deriv
  simp only [id_eq]
  ring

theorem focalLossOf_deriv (h0 : 0 < q) (h1 : q < 1) (y g : ℝ) :
    HasDerivAt (fun q => focalLossOf y q (1 - q) g) (focalDlDp y q (1 - q) g) q := by
  have hclaim := ((hasDerivAt_one_sub_rpow h1 g).const_mul y).fun_mul (Real.hasDerivAt_log h0.ne')
  have hnone := ((hasDerivAt_rpow h0 g).const_mul (1 - y)).fun_mul (hasDerivAt_log_one_sub h1)
  apply (hclaim.fun_add hnone).fun_neg.congr_deriv
  rw [focalDlDp]
  field_simp
  ring

theorem focalDlDp_deriv (h0 : 0 < q) (h1 : q < 1) (y g : ℝ) :
    HasDerivAt (fun q => focalDlDp y q (1 - q) g) (focalD2lDp2 y q (1 - q) g) q := by
  have hu : HasDerivAt (fun q : ℝ => 1 - q) (-1) q := (hasDerivAt_id q).const_sub 1
  have hq1 := hasDerivAt_rpow h0 (g - 1)
  have hu1 := hasDerivAt_one_sub_rpow h1 (g - 1)
  have h1q : 0 < 1 - q := sub_pos.mpr h1
  have ha := (hu1.const_mul (y * g)).fun_mul (Real.hasDerivAt_log h0.ne')
  have hb := ((hasDerivAt_one_sub_rpow h1 g).const_mul y).fun_div (hasDerivAt_id q) h0.ne'
  have hc := (hq1.const_mul ((1 - y) * g)).fun_mul (hasDerivAt_log_one_sub h1)
  have hd := ((hasDerivAt_rpow h0 g).const_mul (1 - y)).fun_div hu h1q.ne'
  apply (((ha.fun_sub hb).fun_sub hc).fun_add hd).congr_deriv
  have hexp : g - 1 - 1 = g - 2 := by ring
  rw [focalD2lDp2, hexp]
  simp only [id_eq]
  field_simp
  ring

/-- The probability is strictly between the ends that it is clipped to. -/
def ClipInactive (f : ℝ) : Prop := pFloor < Real.sigmoid f ∧ Real.sigmoid f < 1 - pFloor

theorem focalProb_eq (f : ℝ) : focalProb f = min (max (Real.sigmoid f) pFloor) (1 - pFloor) := by
  rw [focalProb, one_div, Real.sigmoid]

theorem focalProb_mem (f : ℝ) : 0 < focalProb f ∧ focalProb f < 1 := by
  have hfloor : 0 < pFloor ∧ pFloor < 1 := by norm_num [pFloor]
  rw [focalProb_eq]
  constructor
  · exact lt_min (lt_max_of_lt_right hfloor.1) (sub_pos.mpr hfloor.2)
  · exact min_lt_of_right_lt (sub_lt_self 1 hfloor.1)

theorem focalProb_deriv (h : ClipInactive f) :
    HasDerivAt focalProb (focalProb f * (1 - focalProb f)) f := by
  have hin : ∀ z, ClipInactive z → focalProb z = Real.sigmoid z := fun z hz => by
    rw [focalProb_eq, max_eq_left hz.1.le, min_eq_left hz.2.le]
  have hcont : ContinuousAt Real.sigmoid f := (Real.hasDerivAt_sigmoid f).continuousAt
  rw [hin f h]
  apply (Real.hasDerivAt_sigmoid f).congr_of_eventuallyEq
  filter_upwards [hcont.eventually_const_lt h.1, hcont.eventually_lt_const h.2] with z hz hz'
  exact hin z ⟨hz, hz'⟩

theorem focalLoss_deriv (h : ClipInactive f) (y : ℝ) (p : Params) :
    HasDerivAt (fun f => focalLoss y f p) (focalGrad y f p) f := by
  obtain ⟨h0, h1⟩ := focalProb_mem f
  apply ((focalLossOf_deriv h0 h1 y (p "gamma")).comp f (focalProb_deriv h)).congr_deriv
  rw [focalGrad]
  ring

theorem focalGrad_deriv (h : ClipInactive f) (y : ℝ) (p : Params) :
    HasDerivAt (fun f => focalGrad y f p) (focalHess y f p) f := by
  obtain ⟨h0, h1⟩ := focalProb_mem f
  have hprob := focalProb_deriv h
  have hdl := (focalDlDp_deriv h0 h1 y (p "gamma")).comp f hprob
  apply ((hdl.fun_mul hprob).fun_mul (hprob.const_sub 1)).congr_deriv
  simp only [Function.comp_apply, focalHess]
  ring

end Focal

/-! ## Continuity -/

theorem continuous_weighted {a b : ℝ} {c g : ℝ → ℝ} (hc : Continuous c) (hg : Continuous g)
    (h0 : ∀ f, c f = y → g f = 0) : Continuous fun f => (if c f < y then a else b) * g f := by
  simp only [ite_mul]
  apply continuous_ite_lt hc continuous_const (hg.const_mul a) (hg.const_mul b)
  intro f hf
  rw [h0 f hf, mul_zero, mul_zero]

theorem continuous_asymSqLoss (y : ℝ) (p : Params) : Continuous fun f => asymSqLoss y f p := by
  apply continuous_weighted continuous_mu (by fun_prop)
  intro f hf
  rw [hf, sub_self, zero_pow two_ne_zero]

theorem continuous_asymPoisLoss (y : ℝ) (p : Params) :
    Continuous fun f => asymPoisLoss y f p := by
  simp only [asymPoisLoss, mul_assoc]
  apply continuous_weighted continuous_mu
  · split_ifs <;> fun_prop
  · intro f hf
    have hpos : 0 < y := hf ▸ mu_pos f
    rw [if_pos hpos, (mu_eq_iff hpos).mp hf, mu, Real.exp_log hpos]
    ring

theorem continuous_quantileLoss (y : ℝ) (p : Params) : Continuous fun f => quantileLoss y f p := by
  simp only [quantileLoss, pinballWeight, sub_pos]
  apply continuous_weighted continuous_mu (by fun_prop)
  intro f hf
  rw [hf, sub_self]

theorem continuous_huberLoss (y : ℝ) (p : Params) : Continuous fun f => huberLoss y f p := by
  have hr : Continuous fun f => |y - mu f| := by fun_prop
  apply Continuous.if_le (by fun_prop) (by fun_prop) hr continuous_const
  intro f hf
  rw [← sq_abs, hf]
  ring

theorem continuous_focalLoss (y : ℝ) (p : Params) : Continuous fun f => focalLoss y f p := by
  have hprob : Continuous focalProb := by
    have hsig : Continuous Real.sigmoid := by fun_prop
    rw [funext focalProb_eq]
    fun_prop
  rw [continuous_iff_continuousAt]
  intro f
  obtain ⟨h0, h1⟩ := focalProb_mem f
  exact ContinuousAt.comp (g := fun q => focalLossOf y q (1 - q) (p "gamma"))
    (focalLossOf_deriv h0 h1 y _).continuousAt hprob.continuousAt

end GiPricing.Modelling
