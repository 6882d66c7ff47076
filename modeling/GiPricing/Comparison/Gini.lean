import GiPricing.Comparison.Measures
import GiPricing.Numeric.Lorenz

/-! # The Gini of a model

Over frames of positive exposures the coefficient of an order is the sum of the cross products of its
rows with the later rows, so that no order has a greater one than that of the actual rates.
-/

namespace GiPricing.Comparison

open GiPricing.Order Lorenz

attribute [local instance] Numerals.two

variable {K : Type} [Field K] [LinearOrder K]

/-! ## Numbers -/

def numbered (l : List K) : List (Reading K) := l.map some

omit [LinearOrder K] in
theorem at?_numbered {l : List K} {i : ℕ} (hi : i < l.length) : at? (numbered l) i = some (l.getD i 0) := by
  simp [at?, numbered, hi]

omit [LinearOrder K] in
theorem sum_numbered (l : List K) : Reading.sum (numbered l) = some l.sum := by
  induction l with
  | nil => rfl
  | cons x l ih =>
    have hsum : Reading.sum (numbered (x :: l)) = Reading.add (some x) (Reading.sum (numbered l)) := rfl
    rw [hsum, ih, List.sum_cons]
    rfl

def runningSums : K → List K → List K
  | _, [] => []
  | s, x :: l => (s + x) :: runningSums (s + x) l

omit [LinearOrder K] in
theorem scanl_numbered (s : K) (l : List K) :
    (numbered l).scanl Reading.add (some s) = some s :: numbered (runningSums s l) := by
  induction l generalizing s with
  | nil => rfl
  | cons x l ih =>
    have hstep : Reading.add (some s) (some x) = some (s + x) := rfl
    rw [numbered, List.map_cons, List.scanl_cons, hstep]
    exact congrArg _ (ih (s + x))

omit [LinearOrder K] in
theorem cumsum_numbered (l : List K) : Reading.cumsum (numbered l) = numbered (runningSums 0 l) := by
  rw [Reading.cumsum, scanl_numbered, List.tail_cons]

/-! ## The area -/

def areaOver (points : List (Reading K × Reading K)) : Reading K :=
  Reading.sum ((points.zip points.tail).map fun p =>
    Reading.div (Reading.mul (Reading.sub p.2.1 p.1.1) (Reading.add p.2.2 p.1.2)) (some 2))

/-- The points of a curve, as shares of its ends. -/
def curve (x y E A : K) (l : List (K × K)) : List (Reading K × Reading K) :=
  (some (x / E), some (y / A)) :: ((numbered (runningSums x (l.map Prod.fst))).map
    fun v => Reading.div v (some E)).zip ((numbered (runningSums y (l.map Prod.snd))).map
      fun v => Reading.div v (some A))

omit [LinearOrder K] in
theorem areaOver_curve (x y : K) {E A : K} (hE : E ≠ 0) (hA : A ≠ 0) (h2 : (2 : K) ≠ 0)
    (l : List (K × K)) : areaOver (curve x y E A l) = some (doubleArea y l / (2 * (E * A))) := by
  induction l generalizing x y with
  | nil => simp [areaOver, curve, runningSums, numbered, doubleArea, Reading.sum]
  | cons r l ih =>
    obtain ⟨e, a⟩ := r
    have hcurve : curve x y E A ((e, a) :: l) =
        (some (x / E), some (y / A)) :: curve (x + e) (y + a) E A l := rfl
    have hnext := ih (x + e) (y + a)
    rw [hcurve]
    have hsplit : areaOver ((some (x / E), some (y / A)) :: curve (x + e) (y + a) E A l) =
        Reading.add (some (((x + e) / E - x / E) * ((y + a) / A + y / A) / 2))
          (areaOver (curve (x + e) (y + a) E A l)) := rfl
    rw [hsplit, hnext]
    have hvalue : ((x + e) / E - x / E) * ((y + a) / A + y / A) / 2 +
        doubleArea (y + a) l / (2 * (E * A)) = doubleArea y ((e, a) :: l) / (2 * (E * A)) := by
      rw [doubleArea]
      field_simp
      ring
    rw [← hvalue]
    rfl

/-! ## The coefficient -/

/-- The rows of a frame in an order: exposure and actual. -/
def ordered (exposure actual : List K) (order : List ℕ) : List (K × K) :=
  order.map fun i => (exposure.getD i 0, actual.getD i 0)

section Coefficient

variable {actual exposure : List K} {order_key : List (Reading K)}

omit [LinearOrder K] in
theorem map_at? {l : List K} {order : List ℕ} (h : ∀ i ∈ order, i < l.length) :
    order.map (at? (numbered l)) = numbered (order.map fun i => l.getD i 0) := by
  unfold numbered
  rw [List.map_map]
  exact List.map_congr_left fun i hi => at?_numbered (h i hi)

omit [LinearOrder K] in
theorem map_getD (l : List K) : (List.range l.length).map (fun i => l.getD i 0) = l := by
  apply List.ext_getElem
  · simp
  · intro i h1 h2
    simp [h2]

omit [LinearOrder K] in
theorem ordered_fst (order : List ℕ) :
    (ordered exposure actual order).map Prod.fst = order.map fun i => exposure.getD i 0 := by
  simp [ordered, Function.comp_def]

omit [LinearOrder K] in
theorem ordered_snd (order : List ℕ) :
    (ordered exposure actual order).map Prod.snd = order.map fun i => actual.getD i 0 := by
  simp [ordered, Function.comp_def]

theorem along_ordered {key : ℕ → WithTop K} :
    along (ordered exposure actual (argsort key exposure.length)) = exposure.sum := by
  rw [along, ordered_fst, ((argsort_perm key _).map _).sum_eq, map_getD]

theorem high_ordered {key : ℕ → WithTop K} :
    high (ordered exposure actual (argsort key actual.length)) = actual.sum := by
  rw [high, ordered_snd, ((argsort_perm key _).map _).sum_eq, map_getD]

/-- The coefficient of an order is the sum of the cross products of its rows. -/
theorem coefficient_eq [IsStrictOrderedRing K] (hlength : exposure.length = actual.length)
    (hkeys : order_key.length = actual.length) (hE : exposure.sum ≠ 0) (hA : actual.sum ≠ 0) :
    coefficient (numbered actual) (numbered exposure) order_key =
      some (cross (ordered exposure actual (argsort (keys order_key) actual.length)) /
        (exposure.sum * actual.sum)) := by
  have harea := areaOver_curve 0 0 hE hA two_ne_zero
    (ordered exposure actual (argsort (keys order_key) actual.length))
  have halong := along_mul_high (l := ordered exposure actual (argsort (keys order_key) actual.length))
  rw [high_ordered, ← hlength, along_ordered, hlength] at halong
  have htrapezoid : areaOver (curve 0 0 exposure.sum actual.sum
      (ordered exposure actual (argsort (keys order_key) actual.length))) =
      Reading.trapezoid
        ((Reading.cumsum ((argsort (keys order_key) actual.length).map (at? (numbered actual)))).map
          fun v => Reading.div v (some actual.sum))
        ((Reading.cumsum ((argsort (keys order_key) actual.length).map (at? (numbered exposure)))).map
          fun v => Reading.div v (some exposure.sum)) := by
    have hx : ∀ i ∈ argsort (keys order_key) actual.length, i < exposure.length := fun i hi => by
      rw [hlength]
      exact mem_argsort.mp hi
    rw [map_at? (fun i hi => mem_argsort.mp hi), map_at? hx, cumsum_numbered, cumsum_numbered, areaOver,
      curve, ordered_fst, ordered_snd, zero_div, zero_div, Reading.trapezoid]
  unfold coefficient
  dsimp only
  rw [hkeys, sum_numbered, sum_numbered, ← htrapezoid, harea]
  have hvalue : 1 - 2 * (doubleArea 0 (ordered exposure actual
      (argsort (keys order_key) actual.length)) / (2 * (exposure.sum * actual.sum))) =
      cross (ordered exposure actual (argsort (keys order_key) actual.length)) /
        (exposure.sum * actual.sum) := by
    field_simp
    linear_combination halong
  rw [← hvalue]
  rfl

end Coefficient

/-! ## Rates -/

/-- A frame with a row for each prediction, of positive exposures. -/
structure RatedBook (actual predicted exposure : List K) : Prop where
  predicted_length : predicted.length = actual.length
  exposure_length : exposure.length = actual.length
  exposure_pos : ∀ e ∈ exposure, 0 < e

/-- Some of the actuals are positive, and none is negative. -/
structure PositiveBook (actual predicted exposure : List K) : Prop extends
    RatedBook actual predicted exposure where
  actual_nonneg : ∀ a ∈ actual, 0 ≤ a
  actual_pos : 0 < actual.sum

def rate (l exposure : List K) (i : ℕ) : K := l.getD i 0 / exposure.getD i 0

def rateCoefficient (actual exposure predicted : List K) : Reading K :=
  coefficient (numbered actual) (numbered exposure) (rates (numbered predicted) (numbered exposure))

section Rates

variable {actual predicted exposure : List K} {c : K}

theorem exposure_getD (h : ∀ e ∈ exposure, 0 < e) {i : ℕ} (hi : i < exposure.length) :
    0 < exposure.getD i 0 := by
  have hget : exposure.getD i 0 = exposure[i] := by simp [hi]
  rw [hget]
  exact h _ (List.getElem_mem hi)

theorem length_rates (hlength : predicted.length = exposure.length) :
    (rates (numbered predicted) (numbered exposure)).length = predicted.length := by
  rw [rates, List.length_zipWith, numbered, numbered, List.length_map, List.length_map, ← hlength,
    min_self]

theorem keys_rates (h : ∀ e ∈ exposure, 0 < e) (hlength : predicted.length = exposure.length) {i : ℕ}
    (hi : i < predicted.length) :
    keys (rates (numbered predicted) (numbered exposure)) i =
      ((rate predicted exposure i : K) : WithTop K) := by
  have hi' : i < exposure.length := hlength ▸ hi
  have he : 0 < exposure[i] := h _ (List.getElem_mem hi')
  simp [keys, at?, rates, numbered, hi, hi', Reading.lt, he, Reading.div, Reading.key, rate]

theorem keys_le (h : ∀ e ∈ exposure, 0 < e) (hlength : predicted.length = exposure.length) {i j : ℕ}
    (hi : i < predicted.length) (hj : j < predicted.length) :
    keys (rates (numbered predicted) (numbered exposure)) i ≤
      keys (rates (numbered predicted) (numbered exposure)) j ↔
        rate predicted exposure i ≤ rate predicted exposure j := by
  rw [keys_rates h hlength hi, keys_rates h hlength hj, WithTop.coe_le_coe]

variable [IsStrictOrderedRing K]

theorem RatedBook.exposure_sum_pos (h : RatedBook actual predicted exposure) (hA : actual.sum ≠ 0) :
    0 < exposure.sum := by
  apply List.sum_pos _ h.exposure_pos
  rintro rfl
  have hnil : actual = [] := List.length_eq_zero_iff.mp h.exposure_length.symm
  exact hA (by rw [hnil, List.sum_nil])

def rateOrdered (actual exposure predicted : List K) : List (K × K) :=
  ordered exposure actual
    (argsort (keys (rates (numbered predicted) (numbered exposure))) actual.length)

theorem rateCoefficient_eq (h : RatedBook actual predicted exposure) (hA : actual.sum ≠ 0) :
    rateCoefficient actual exposure predicted =
      some (cross (rateOrdered actual exposure predicted) / (exposure.sum * actual.sum)) := by
  apply coefficient_eq h.exposure_length _ (h.exposure_sum_pos hA).ne' hA
  rw [length_rates (h.predicted_length.trans h.exposure_length.symm), h.predicted_length]

omit [IsStrictOrderedRing K] in
theorem PositiveBook.oracle (h : PositiveBook actual predicted exposure) :
    PositiveBook actual actual exposure :=
  ⟨⟨rfl, h.exposure_length, h.exposure_pos⟩, h.actual_nonneg, h.actual_pos⟩

omit [IsStrictOrderedRing K] in
theorem rateOrdered_perm (predicted' : List K) : (rateOrdered actual exposure predicted).Perm
    (rateOrdered actual exposure predicted') :=
  ((argsort_perm _ _).trans (argsort_perm _ _).symm).map _

theorem cross_rateOrdered (h : RatedBook actual predicted exposure)
    (horder : ∀ i < actual.length, ∀ j < actual.length,
      rate actual exposure i < rate actual exposure j →
        rate predicted exposure i < rate predicted exposure j) :
    cross (rateOrdered actual exposure predicted) = spread (rateOrdered actual exposure predicted) := by
  apply cross_eq_spread
  unfold rateOrdered ordered
  rw [List.pairwise_map]
  apply (pairwise_argsort _ _).imp_of_mem
  intro i j hi hj hij
  have hi := mem_argsort.mp hi
  have hj := mem_argsort.mp hj
  have hlength := h.predicted_length.trans h.exposure_length.symm
  rw [keys_le h.exposure_pos hlength (by rw [h.predicted_length]; exact hi)
    (by rw [h.predicted_length]; exact hj)] at hij
  have hrates : rate actual exposure i ≤ rate actual exposure j := by
    by_contra hlt
    exact absurd hij (not_le.mpr (horder j hj i hi (not_le.mp hlt)))
  have hei := exposure_getD h.exposure_pos (by rw [h.exposure_length]; exact hi : i < exposure.length)
  have hej := exposure_getD h.exposure_pos (by rw [h.exposure_length]; exact hj : j < exposure.length)
  unfold rate at hrates
  rw [div_le_div_iff₀ hei hej] at hrates
  dsimp only
  linarith

/-! ## Scales -/

def scaled (c : K) (l : List K) : List K := l.map (c * ·)

omit [LinearOrder K] [IsStrictOrderedRing K] in
theorem getD_scaled (l : List K) (i : ℕ) : (scaled c l).getD i 0 = c * l.getD i 0 := by
  by_cases hi : i < l.length
  · simp [scaled, hi]
  · simp [scaled, hi]

omit [LinearOrder K] [IsStrictOrderedRing K] in
theorem sum_scaled (l : List K) : (scaled c l).sum = c * l.sum := by
  have hsum := List.sum_map_mul_left l id c
  simpa [scaled] using hsum

theorem scaled_pos {l : List K} (hc : 0 < c) (h : ∀ x ∈ l, 0 < x) : ∀ x ∈ scaled c l, 0 < x := by
  intro x hx
  obtain ⟨y, hy, rfl⟩ := List.mem_map.mp hx
  exact mul_pos hc (h y hy)

omit [LinearOrder K] [IsStrictOrderedRing K] in
@[simp] theorem length_scaled (l : List K) : (scaled c l).length = l.length := List.length_map _

theorem PositiveBook.scale_exposure (h : PositiveBook actual predicted exposure) (hc : 0 < c) :
    PositiveBook actual predicted (scaled c exposure) :=
  ⟨⟨h.predicted_length, by rw [length_scaled, h.exposure_length], scaled_pos hc h.exposure_pos⟩,
    h.actual_nonneg, h.actual_pos⟩

theorem PositiveBook.scale_actual (h : PositiveBook actual predicted exposure) (hc : 0 < c) :
    PositiveBook (scaled c actual) predicted exposure := by
  refine ⟨⟨by rw [length_scaled, h.predicted_length], by rw [length_scaled, h.exposure_length],
    h.exposure_pos⟩, fun x hx => ?_, ?_⟩
  · obtain ⟨y, hy, rfl⟩ := List.mem_map.mp hx
    exact mul_nonneg hc.le (h.actual_nonneg y hy)
  · rw [sum_scaled]
    exact mul_pos hc h.actual_pos

omit [IsStrictOrderedRing K] in
theorem PositiveBook.scale_predicted (h : PositiveBook actual predicted exposure) :
    PositiveBook actual (scaled c predicted) exposure :=
  ⟨⟨by rw [length_scaled, h.predicted_length], h.exposure_length, h.exposure_pos⟩, h.actual_nonneg,
    h.actual_pos⟩

omit [IsStrictOrderedRing K] in
theorem argsort_rates {actual' predicted' exposure' : List K}
    (h : PositiveBook actual predicted exposure) (h' : PositiveBook actual' predicted' exposure')
    (hlength : actual'.length = actual.length)
    (hrates : ∀ i j, rate predicted' exposure' i ≤ rate predicted' exposure' j ↔
      rate predicted exposure i ≤ rate predicted exposure j) :
    argsort (keys (rates (numbered predicted') (numbered exposure'))) actual.length =
      argsort (keys (rates (numbered predicted) (numbered exposure))) actual.length := by
  apply argsort_congr
  intro i hi j hj
  rw [keys_le h'.exposure_pos (h'.predicted_length.trans h'.exposure_length.symm)
    (by rw [h'.predicted_length, hlength]; exact hi) (by rw [h'.predicted_length, hlength]; exact hj),
    keys_le h.exposure_pos (h.predicted_length.trans h.exposure_length.symm)
      (by rw [h.predicted_length]; exact hi) (by rw [h.predicted_length]; exact hj)]
  exact hrates i j

theorem rateCoefficient_scale_predicted (h : PositiveBook actual predicted exposure) (hc : 0 < c) :
    rateCoefficient actual exposure (scaled c predicted) =
      rateCoefficient actual exposure predicted := by
  rw [rateCoefficient_eq h.toRatedBook h.actual_pos.ne',
    rateCoefficient_eq h.scale_predicted.toRatedBook h.actual_pos.ne', rateOrdered, rateOrdered,
    argsort_rates h h.scale_predicted rfl]
  intro i j
  unfold rate
  rw [getD_scaled, getD_scaled, mul_div_assoc, mul_div_assoc]
  exact mul_le_mul_iff_right₀ hc

theorem rateCoefficient_scale_exposure (h : PositiveBook actual predicted exposure) (hc : 0 < c) :
    rateCoefficient actual (scaled c exposure) predicted =
      rateCoefficient actual exposure predicted := by
  have horder := argsort_rates h (h.scale_exposure hc) rfl (fun i j => by
    unfold rate
    rw [getD_scaled, getD_scaled, div_mul_eq_div_div_swap, div_mul_eq_div_div_swap]
    exact div_le_div_iff_of_pos_right hc)
  have hrows : rateOrdered actual (scaled c exposure) predicted =
      (rateOrdered actual exposure predicted).map fun r => (c * r.1, 1 * r.2) := by
    rw [rateOrdered, rateOrdered, horder, ordered, ordered, List.map_map]
    apply List.map_congr_left
    intro i _
    simp only [Function.comp_apply, getD_scaled, one_mul]
  have hE := (h.exposure_sum_pos h.actual_pos.ne').ne'
  have hA := h.actual_pos.ne'
  rw [rateCoefficient_eq h.toRatedBook hA, rateCoefficient_eq (h.scale_exposure hc).toRatedBook hA, hrows, cross_scale, sum_scaled]
  congr 1
  field_simp

theorem rateCoefficient_scale_actual (h : PositiveBook actual predicted exposure) (hc : 0 < c) :
    rateCoefficient (scaled c actual) exposure predicted =
      rateCoefficient actual exposure predicted := by
  have hrows : rateOrdered (scaled c actual) exposure predicted =
      (rateOrdered actual exposure predicted).map fun r => (1 * r.1, c * r.2) := by
    rw [rateOrdered, rateOrdered, length_scaled, ordered, ordered, List.map_map]
    apply List.map_congr_left
    intro i _
    simp only [Function.comp_apply, getD_scaled, one_mul]
  have hE := (h.exposure_sum_pos h.actual_pos.ne').ne'
  have hA := h.actual_pos.ne'
  rw [rateCoefficient_eq h.toRatedBook hA,
    rateCoefficient_eq (h.scale_actual hc).toRatedBook (h.scale_actual hc).actual_pos.ne', hrows, cross_scale, sum_scaled]
  congr 1
  field_simp

/-! ## The oracle -/

theorem gini_numbered (h : PositiveBook actual predicted exposure) :
    gini (numbered actual) (numbered predicted) (numbered exposure) =
      (rateCoefficient actual exposure predicted,
        if Reading.lt (some 0) (rateCoefficient actual exposure actual) then
          Reading.div (rateCoefficient actual exposure predicted)
            (rateCoefficient actual exposure actual)
        else some 0) := by
  unfold gini
  rw [sum_numbered, sum_numbered, if_neg]
  · rfl
  · simp [Reading.le, h.actual_pos, h.exposure_sum_pos h.actual_pos.ne']

/-- What the Gini of a model is, beside that of the actual rates: no further from zero, less than one,
and the same where no row of a greater actual rate comes first. -/
structure WithinOracle (actual predicted exposure : List K) (model perfect : K) : Prop where
  model_coefficient : rateCoefficient actual exposure predicted = some model
  perfect_coefficient : rateCoefficient actual exposure actual = some perfect
  computed : gini (numbered actual) (numbered predicted) (numbered exposure) =
    (some model, some (if 0 < perfect then model / perfect else 0))
  between : -perfect ≤ model ∧ model ≤ perfect
  model_bounds : -1 < model ∧ model < 1
  perfect_bounds : -1 < perfect ∧ perfect < 1
  normalised : 0 < perfect → -1 ≤ model / perfect ∧ model / perfect ≤ 1
  ordered_alike : 0 < perfect → (∀ i < actual.length, ∀ j < actual.length,
    rate actual exposure i < rate actual exposure j →
      rate predicted exposure i < rate predicted exposure j) → model / perfect = 1
  scaled_exposures : ∀ c, 0 < c →
    rateCoefficient actual (scaled c exposure) predicted = some model ∧
      rateCoefficient actual (scaled c exposure) actual = some perfect
  scaled_actuals : ∀ c, 0 < c →
    rateCoefficient (scaled c actual) exposure predicted = some model ∧
      rateCoefficient (scaled c actual) exposure (scaled c actual) = some perfect
  scaled_predictions : ∀ c, 0 < c →
    rateCoefficient actual exposure (scaled c predicted) = some model

/-- No model beats the order of the actual rates. -/
theorem gini_within_oracle (h : PositiveBook actual predicted exposure) :
    ∃ model perfect, WithinOracle actual predicted exposure model perfect := by
  have hA := h.actual_pos.ne'
  have hmodel := rateCoefficient_eq h.toRatedBook hA
  have hperfect := rateCoefficient_eq h.oracle.toRatedBook hA
  have hspread : cross (rateOrdered actual exposure actual) =
      spread (rateOrdered actual exposure predicted) := by
    rw [cross_rateOrdered h.oracle.toRatedBook (fun _ _ _ _ hlt => hlt), spread_perm (rateOrdered_perm predicted)]
  rw [hspread] at hperfect
  have hE := h.exposure_sum_pos hA
  have hbase : 0 < exposure.sum * actual.sum := mul_pos hE h.actual_pos
  have habs := abs_le.mp (abs_cross_le (l := rateOrdered actual exposure predicted))
  have hlt : spread (rateOrdered actual exposure predicted) < exposure.sum * actual.sum := by
    have halong : along (rateOrdered actual exposure predicted) = exposure.sum := by
      rw [rateOrdered, ← h.exposure_length, along_ordered]
    have hhigh : high (rateOrdered actual exposure predicted) = actual.sum := high_ordered
    rw [← halong, ← hhigh]
    apply spread_lt
    · intro r hr
      obtain ⟨i, hi, rfl⟩ := List.mem_map.mp hr
      exact exposure_getD h.exposure_pos (by rw [h.exposure_length]; exact mem_argsort.mp hi)
    · intro r hr
      obtain ⟨i, hi, rfl⟩ := List.mem_map.mp hr
      have hi := mem_argsort.mp hi
      have hget : actual.getD i 0 = actual[i] := by simp [hi]
      dsimp only
      rw [hget]
      exact h.actual_nonneg _ (List.getElem_mem _)
    · rw [hhigh]
      exact h.actual_pos
  have hnonneg : 0 ≤ spread (rateOrdered actual exposure predicted) :=
    (abs_nonneg _).trans abs_cross_le
  have hbetween : -(spread (rateOrdered actual exposure predicted) / (exposure.sum * actual.sum)) ≤
      cross (rateOrdered actual exposure predicted) / (exposure.sum * actual.sum) ∧
      cross (rateOrdered actual exposure predicted) / (exposure.sum * actual.sum) ≤
        spread (rateOrdered actual exposure predicted) / (exposure.sum * actual.sum) := by
    rw [← neg_div]
    exact ⟨div_le_div_of_nonneg_right habs.1 hbase.le, div_le_div_of_nonneg_right habs.2 hbase.le⟩
  have hone : spread (rateOrdered actual exposure predicted) / (exposure.sum * actual.sum) < 1 :=
    (div_lt_one hbase).mpr hlt
  have hzero : 0 ≤ spread (rateOrdered actual exposure predicted) / (exposure.sum * actual.sum) :=
    div_nonneg hnonneg hbase.le
  refine ⟨_, _, ⟨hmodel, hperfect, ?_, hbetween, ⟨by linarith [hbetween.1], by linarith [hbetween.2]⟩,
    ⟨by linarith, hone⟩, fun hpos => ?_, fun hpos horder => ?_, fun c hc => ?_, fun c hc => ?_,
    fun c hc => ?_⟩⟩
  · rw [gini_numbered h, hmodel, hperfect]
    congr 1
    simp only [Reading.lt, decide_eq_true_eq]
    split_ifs <;> rfl
  · rw [le_div_iff₀ hpos, div_le_iff₀ hpos]
    exact ⟨by linarith [hbetween.1], by linarith [hbetween.2]⟩
  · rw [cross_rateOrdered h.toRatedBook horder]
    exact div_self hpos.ne'
  · rw [rateCoefficient_scale_exposure h hc, rateCoefficient_scale_exposure h.oracle hc]
    exact ⟨hmodel, hperfect⟩
  · rw [rateCoefficient_scale_actual h hc,
      rateCoefficient_scale_predicted (h.oracle.scale_actual hc) hc,
      rateCoefficient_scale_actual h.oracle hc]
    exact ⟨hmodel, hperfect⟩
  · rw [rateCoefficient_scale_predicted h hc]
    exact hmodel

end Rates

/-- Three rows, of which the middle one is predicted lowest. -/
theorem three_rows_within : ∃ model perfect : ℚ, WithinOracle [0, 1, 3] [2, 1, 5] [1, 2, 1] model perfect :=
  gini_within_oracle ⟨⟨rfl, rfl, by decide⟩, by decide, by with_unfolding_all decide⟩

end GiPricing.Comparison
