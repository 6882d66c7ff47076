import Mathlib

/-! # Quantiles

The quantiles of a distribution on the line that has no atoms, and of one that is symmetric about
zero: a higher probability has a higher quantile, and above one half it is positive.
-/

namespace GiPricing.Quantile

open MeasureTheory ProbabilityTheory Set Filter Topology

noncomputable def quantile (μ : Measure ℝ) (p : ℝ) : ℝ := sInf {x | p ≤ cdf μ x}

section Atomless

variable (μ : Measure ℝ) [IsProbabilityMeasure μ] [NullSingletonClass μ]

theorem continuous_cdf : Continuous (cdf μ) := by
  rw [continuous_iff_continuousAt]
  intro a
  rw [(monotone_cdf μ).continuousAt_iff_leftLim_eq_rightLim, StieltjesFunction.rightLim_eq]
  have hatom : (cdf μ).measure {a} = 0 := by rw [measure_cdf, measure_singleton]
  rw [StieltjesFunction.measure_singleton, ENNReal.ofReal_eq_zero] at hatom
  apply le_antisymm
  · exact (monotone_cdf μ).leftLim_le le_rfl
  · linarith

theorem cdf_quantile {p : ℝ} (h0 : 0 < p) (h1 : p < 1) : cdf μ (quantile μ p) = p := by
  have hbot : ∀ᶠ x in atBot, cdf μ x < p := (tendsto_cdf_atBot μ).eventually_lt_const h0
  have htop : ∀ᶠ x in atTop, p < cdf μ x := (tendsto_cdf_atTop μ).eventually_const_lt h1
  obtain ⟨low, hlow⟩ := hbot.exists
  obtain ⟨high, hhigh⟩ := htop.exists
  have hbelow : BddBelow {x | p ≤ cdf μ x} := by
    refine ⟨low, fun x hx => ?_⟩
    by_contra hlt
    exact absurd (monotone_cdf μ (not_le.mp hlt).le) (by have := mem_ofPred_eq.symm ▸ hx; linarith)
  have hclosed : IsClosed {x | p ≤ cdf μ x} := isClosed_le continuous_const (continuous_cdf μ)
  have hmem : p ≤ cdf μ (quantile μ p) := hclosed.csInf_mem ⟨high, hhigh.le⟩ hbelow
  obtain ⟨x, hx⟩ : ∃ x, cdf μ x = p :=
    mem_range_of_exists_le_of_exists_ge (continuous_cdf μ) ⟨low, hlow.le⟩ ⟨high, hhigh.le⟩
  apply le_antisymm _ hmem
  calc cdf μ (quantile μ p) ≤ cdf μ x := monotone_cdf μ (csInf_le hbelow hx.ge)
    _ = p := hx

theorem quantile_lt_quantile {p q : ℝ} (h0 : 0 < p) (hpq : p < q) (h1 : q < 1) :
    quantile μ p < quantile μ q := by
  by_contra hle
  have hmono := monotone_cdf μ (not_lt.mp hle)
  rw [cdf_quantile μ h0 (hpq.trans h1), cdf_quantile μ (h0.trans hpq) h1] at hmono
  linarith

theorem cdf_zero (hsymm : μ.map (fun x => -x) = μ) : cdf μ 0 = 1 / 2 := by
  have hswap : μ (Iic 0) = μ (Ioi 0) := by
    have hmeas : Measurable fun x : ℝ => -x := measurable_neg
    calc μ (Iic 0) = μ.map (fun x => -x) (Iic 0) := by rw [hsymm]
      _ = μ (Ici 0) := by
        rw [Measure.map_apply hmeas measurableSet_Iic]
        congr 1
        ext x
        simp
      _ = μ (Ioi 0) := (Ioi_ae_eq_Ici (μ := μ)).measure_eq.symm
  have htotal : μ.real (Iic 0) + μ.real (Ioi 0) = 1 := by
    rw [← compl_Iic, probReal_add_probReal_compl measurableSet_Iic]
  rw [measureReal_def μ (Ioi 0), ← hswap, ← measureReal_def, ← cdf_eq_real] at htotal
  linarith

theorem quantile_pos (hsymm : μ.map (fun x => -x) = μ) {p : ℝ} (h0 : 1 / 2 < p) (h1 : p < 1) :
    0 < quantile μ p := by
  by_contra hle
  have hmono := monotone_cdf μ (not_lt.mp hle)
  rw [cdf_zero μ hsymm, cdf_quantile μ (by linarith) h1] at hmono
  linarith

end Atomless

noncomputable def normalQuantile (p : ℝ) : ℝ := quantile (gaussianReal 0 1) p

theorem gaussianReal_symm : (gaussianReal 0 1).map (fun x : ℝ => -x) = gaussianReal 0 1 := by
  rw [gaussianReal_map_neg, neg_zero]

theorem normalQuantile_pos {p : ℝ} (h0 : 1 / 2 < p) (h1 : p < 1) : 0 < normalQuantile p := by
  have : NullSingletonClass (gaussianReal 0 1) := nullSingletonClass_gaussianReal one_ne_zero
  exact quantile_pos _ gaussianReal_symm h0 h1

theorem normalQuantile_lt {p q : ℝ} (h0 : 0 < p) (hpq : p < q) (h1 : q < 1) :
    normalQuantile p < normalQuantile q := by
  have : NullSingletonClass (gaussianReal 0 1) := nullSingletonClass_gaussianReal one_ne_zero
  exact quantile_lt_quantile _ h0 hpq h1

theorem gaussianReal_Ioc_le {x : ℝ} (hx : 0 ≤ x) :
    (gaussianReal 0 1).real (Ioc 0 x) ≤ x := by
  have hpdf : ∀ y, gaussianPDF 0 1 y ≤ 1 := by
    intro y
    rw [gaussianPDF, ENNReal.ofReal_le_one, gaussianPDFReal]
    have hexp : Real.exp (-(y - 0) ^ 2 / (2 * ((1 : NNReal) : ℝ))) ≤ 1 := by
      rw [Real.exp_le_one_iff]
      have := sq_nonneg (y - 0)
      simp only [NNReal.coe_one]
      linarith
    have hroot : (√(2 * Real.pi * ((1 : NNReal) : ℝ)))⁻¹ ≤ 1 := by
      apply inv_le_one_of_one_le₀
      rw [Real.one_le_sqrt, NNReal.coe_one]
      have := Real.pi_gt_three
      linarith
    exact mul_le_one₀ hroot (Real.exp_nonneg _) hexp
  have hle : gaussianReal 0 1 (Ioc 0 x) ≤ ENNReal.ofReal x := by
    calc gaussianReal 0 1 (Ioc 0 x)
        = ∫⁻ y in Ioc 0 x, gaussianPDF 0 1 y := gaussianReal_apply 0 one_ne_zero _
      _ ≤ ∫⁻ _ in Ioc 0 x, 1 := lintegral_mono hpdf
      _ = ENNReal.ofReal x := by simp
  exact ENNReal.toReal_le_of_le_ofReal hx hle

theorem lt_normalQuantile {x p : ℝ} (hx : 0 ≤ x) (hxp : 1 / 2 + x < p) (h1 : p < 1) :
    x < normalQuantile p := by
  have : NullSingletonClass (gaussianReal 0 1) := nullSingletonClass_gaussianReal one_ne_zero
  have hsplit : cdf (gaussianReal 0 1) x ≤ 1 / 2 + x := by
    rw [← cdf_zero _ gaussianReal_symm, cdf_eq_real, cdf_eq_real, ← Iic_union_Ioc_eq_Iic hx]
    apply (measureReal_union_le _ _).trans
    have := gaussianReal_Ioc_le hx
    linarith
  by_contra hle
  have hmono := monotone_cdf (gaussianReal 0 1) (not_lt.mp hle)
  rw [normalQuantile, cdf_quantile _ (by linarith) h1] at hmono
  linarith

end GiPricing.Quantile
