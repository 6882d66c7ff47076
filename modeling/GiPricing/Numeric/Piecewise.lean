import Mathlib.Analysis.Calculus.Deriv.Basic
import Mathlib.Topology.Order.OrderClosed

/-! # Functions by pieces

A function that switches between two pieces is differentiable where the switch does not turn, and
where it turns if the pieces agree to first order. It is continuous if the pieces agree there.
-/

namespace GiPricing.Numeric

open Filter Topology

section Derivative

variable {𝕜 F : Type*} [NontriviallyNormedField 𝕜] [NormedAddCommGroup F] [NormedSpace 𝕜 F]
  {P : 𝕜 → Prop} [DecidablePred P] {f g h : 𝕜 → F} {g' h' : F} {x : 𝕜}

theorem hasDerivAt_ite (hP : ∀ᶠ z in 𝓝 x, P z ↔ P x) (hg : P x → HasDerivAt g g' x)
    (hh : ¬ P x → HasDerivAt h h' x) :
    HasDerivAt (fun z => if P z then g z else h z) (if P x then g' else h') x := by
  by_cases hx : P x
  · rw [if_pos hx]
    apply (hg hx).congr_of_eventuallyEq
    filter_upwards [hP] with z hz
    rw [if_pos (hz.mpr hx)]
  · rw [if_neg hx]
    apply (hh hx).congr_of_eventuallyEq
    filter_upwards [hP] with z hz
    rw [if_neg fun h => hx (hz.mp h)]

end Derivative

theorem hasDerivAt_of_pieces {F : Type*} [NormedAddCommGroup F] [NormedSpace ℝ F] {f g h : ℝ → F}
    {d : F} {x : ℝ} (hg : HasDerivAt g d x) (hh : HasDerivAt h d x)
    (hleft : ∀ᶠ z in 𝓝 x, z ≤ x → f z = g z) (hright : ∀ᶠ z in 𝓝 x, x ≤ z → f z = h z) :
    HasDerivAt f d x := by
  have hl : HasDerivWithinAt f d (Set.Iic x) x :=
    hg.hasDerivWithinAt.congr_of_eventuallyEq (eventually_nhdsWithin_iff.mpr hleft)
      (hleft.self_of_nhds le_rfl)
  have hr : HasDerivWithinAt f d (Set.Ici x) x :=
    hh.hasDerivWithinAt.congr_of_eventuallyEq (eventually_nhdsWithin_iff.mpr hright)
      (hright.self_of_nhds le_rfl)
  have hu := hl.union hr
  rwa [Set.Iic_union_Ici, hasDerivWithinAt_univ] at hu

section Switch

variable {X α : Type*} [TopologicalSpace X] [TopologicalSpace α] [LinearOrder α]
  [OrderClosedTopology α] {c d : X → α} {x : X}

theorem eventually_lt_iff (hc : ContinuousAt c x) (hd : ContinuousAt d x) (h : c x ≠ d x) :
    ∀ᶠ z in 𝓝 x, c z < d z ↔ c x < d x := by
  rcases h.lt_or_gt with hlt | hgt
  · filter_upwards [hc.eventually_lt hd hlt] with z hz
    exact iff_of_true hz hlt
  · filter_upwards [hd.eventually_lt hc hgt] with z hz
    exact iff_of_false hz.not_gt hgt.not_gt

theorem eventually_le_iff (hc : ContinuousAt c x) (hd : ContinuousAt d x) (h : c x ≠ d x) :
    ∀ᶠ z in 𝓝 x, c z ≤ d z ↔ c x ≤ d x := by
  filter_upwards [eventually_lt_iff hd hc h.symm] with z hz
  rw [← not_lt, ← not_lt, hz]

theorem continuous_ite_lt {Y : Type*} [TopologicalSpace Y] [∀ z, Decidable (c z < d z)]
    {g h : X → Y} (hc : Continuous c) (hd : Continuous d) (hg : Continuous g) (hh : Continuous h)
    (heq : ∀ z, c z = d z → g z = h z) : Continuous fun z => if c z < d z then g z else h z := by
  classical
  have hswap : (fun z => if c z < d z then g z else h z) =
      fun z => if d z ≤ c z then h z else g z := by
    ext z
    by_cases hz : c z < d z
    · rw [if_pos hz, if_neg hz.not_ge]
    · rw [if_neg hz, if_pos (not_lt.mp hz)]
  rw [hswap]
  exact hh.if_le hg hd hc fun z hz => (heq z hz.symm).symm

end Switch

end GiPricing.Numeric
