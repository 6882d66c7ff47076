import GiPricing.Failure.Except
import GiPricing.Numeric.Polyline
import Mathlib

/-! # The profile interval of a Tweedie power

The interval is read from the scanned profile where it crosses the threshold. A bound that no
crossing has set is an end of the scan, and it is returned as one.
-/

namespace GiPricing.Modelling

open Failure Polyline

variable {K : Type*} [Field K] [LinearOrder K]

/-- `TweedieProfilePoint`: a scanned power, and the profile log-likelihood at it. -/
abbrev TweedieProfilePoint (K : Type*) := Point K

inductive GlmFitError (K : Type*)
  | emptyCurve
  | gridEdge (best : K) (first : Bool) (grid : List K)
  | notBracketed (grid : List K)
  deriving DecidableEq

/-- The code of a refusal; of an empty scan Python's own error. -/
def GlmFitError.code : GlmFitError K → String
  | emptyCurve => "IndexError"
  | gridEdge .. | notBracketed _ => "GLM_TWEEDIE_POWER_GRID_EDGE"

/-- The loop of `_profile_ci`: each crossing overwrites a bound. -/
def scanBounds (threshold : K) : List (TweedieProfilePoint K) → K × K → K × K
  | a :: b :: rest, (lower, upper) => scanBounds threshold (b :: rest)
      (if a.y ≤ threshold ∧ threshold ≤ b.y then a.crossing threshold b else lower,
        if b.y ≤ threshold ∧ threshold ≤ a.y then a.crossing threshold b else upper)
  | _, bounds => bounds

/-- `_profile_ci`. -/
def profileCi (curve : List (TweedieProfilePoint K)) (threshold estimate : K) :
    Except (GlmFitError K) (K × K) := do
  let powers := curve.map Point.x
  let first ← require powers.head? .emptyCurve
  let last ← require powers.getLast? .emptyCurve
  let bounds := scanBounds threshold curve (first, last)
  ensure (¬ (bounds.1 > estimate ∨ bounds.2 < estimate)) (.notBracketed powers)
  return bounds

structure TweediePowerFit (K : Type*) where
  estimated_power : K
  ci_lower : K
  ci_upper : K
  curve : List (TweedieProfilePoint K)

/-- `_estimate_tweedie_power` from the scanned curve on: the first maximum, refused at an edge. -/
def estimateTweediePower (cutoff : K) (curve : List (TweedieProfilePoint K)) :
    Except (GlmFitError K) (TweediePowerFit K) := do
  let best ← require (curve.argmax Point.y) .emptyCurve
  ensure (curve.head? ≠ some best) (.gridEdge best.x true (curve.map Point.x))
  ensure (curve.getLast? ≠ some best) (.gridEdge best.x false (curve.map Point.x))
  let (lo, hi) ← profileCi curve (best.y - cutoff / 2) best.x
  return ⟨best.x, lo, hi, curve⟩

/-- A scan of increasing powers whose first maximum is a point between its ends. -/
structure InteriorMaximum (curve : List (TweedieProfilePoint K)) (best : TweedieProfilePoint K) :
    Prop where
  ascending : Ascending curve
  inside : ∃ pre post, pre ≠ [] ∧ post ≠ [] ∧ curve = pre ++ best :: post
  greatest : ∀ p ∈ curve, p.y ≤ best.y

/-- The bounds lie around the estimate, on the curve at the threshold, and the curve between them
is at the threshold or above. -/
structure Brackets (curve : List (TweedieProfilePoint K)) (threshold estimate lower upper : K) :
    Prop where
  lower_le : lower ≤ estimate
  le_upper : estimate ≤ upper
  on_lower : On curve lower threshold
  on_upper : On curve upper threshold
  above : ∀ x y, lower ≤ x → x ≤ upper → On curve x y → threshold ≤ y

/-- A bracketed interval or the refusal, and the refusal where the curve stays above the threshold
on one side. -/
structure BracketedOrRefused (curve : List (TweedieProfilePoint K)) (threshold estimate : K) :
    Prop where
  answer : (∃ lower upper, profileCi curve threshold estimate = .ok (lower, upper) ∧
      Brackets curve threshold estimate lower upper) ∨
    profileCi curve threshold estimate = .error (.notBracketed (curve.map Point.x))
  refused : ((∀ p ∈ curve, p.x < estimate → threshold < p.y) ∨
      ∀ p ∈ curve, estimate < p.x → threshold < p.y) →
    profileCi curve threshold estimate = .error (.notBracketed (curve.map Point.x))

variable {curve pre post : List (TweedieProfilePoint K)} {best p : TweedieProfilePoint K}
  {threshold lower upper : K}

theorem scanBounds_eq : scanBounds threshold curve (lower, upper) =
    ((crossings threshold (Rises threshold) curve).getLast?.getD lower,
      (crossings threshold (Falls threshold) curve).getLast?.getD upper) := by
  induction curve generalizing lower upper with
  | nil => rfl
  | cons p rest ih =>
    cases rest with
    | nil => rfl
    | cons q rest =>
      rw [scanBounds, ih, crossings, crossings, List.getLast?_append, List.getLast?_append]
      congr 1
      · cases (crossings threshold (Rises threshold) (q :: rest)).getLast? with
        | some c => rfl
        | none =>
          simp only [Option.getD_none, Option.none_or, Rises]
          split_ifs with h <;> simp [h]
      · cases (crossings threshold (Falls threshold) (q :: rest)).getLast? with
        | some c => rfl
        | none =>
          simp only [Option.getD_none, Option.none_or, Falls]
          split_ifs with h <;> simp [h]

theorem profileCi_eq {first last : TweedieProfilePoint K} (hhead : curve.head? = some first)
    (hlast : curve.getLast? = some last) (estimate : K) :
    profileCi curve threshold estimate =
      let lower := (crossings threshold (Rises threshold) curve).getLast?.getD first.x
      let upper := (crossings threshold (Falls threshold) curve).getLast?.getD last.x
      if lower ≤ estimate ∧ estimate ≤ upper then .ok (lower, upper)
      else .error (.notBracketed (curve.map Point.x)) := by
  simp only [profileCi, List.head?_map, List.getLast?_map, hhead, hlast, Option.map_some, require,
    Option.elim_some, scanBounds_eq, ensure, not_or, not_lt, gt_iff_lt, bind, Except.bind, pure,
    Except.pure]
  split_ifs with h <;> simp

section Ordered

variable [IsStrictOrderedRing K]

theorem falls_lt (hasc : Ascending (pre ++ [best])) (ht : threshold < best.y) {c : K}
    (hc : c ∈ crossings threshold (Falls threshold) (pre ++ [best])) : c < best.x := by
  have hon := on_of_mem_crossings (fun _ _ h => Or.inr h) hasc hc
  apply lt_of_le_of_ne (hon.ge_of_ascending hasc)
  rintro rfl
  exact ht.ne (hon.eq_last hasc)

theorem rises_gt (hasc : Ascending (best :: post)) (ht : threshold < best.y) {c : K}
    (hc : c ∈ crossings threshold (Rises threshold) (best :: post)) : best.x < c := by
  have hon := on_of_mem_crossings (fun _ _ h => Or.inl h) hasc hc
  apply lt_of_le_of_ne (hon.le_of_ascending hasc)
  rintro rfl
  exact ht.ne (hon.eq_first hasc)

theorem brackets_of_bounds (hasc : Ascending (pre ++ best :: post)) (ht : threshold < best.y)
    (hlower : (crossings threshold (Rises threshold) (pre ++ best :: post)).getLast? = some lower)
    (hupper : (crossings threshold (Falls threshold) (pre ++ best :: post)).getLast? = some upper)
    (hle : lower ≤ best.x) (hge : best.x ≤ upper) :
    Brackets (pre ++ best :: post) threshold best.x lower upper := by
  refine ⟨hle, hge, on_of_mem_crossings (fun _ _ h => Or.inl h) hasc (List.mem_of_getLast? hlower),
    on_of_mem_crossings (fun _ _ h => Or.inr h) hasc (List.mem_of_getLast? hupper), ?_⟩
  rw [crossings_append, List.getLast?_append] at hlower hupper
  have hnone : ¬ Somewhere (Rises threshold) (best :: post) := by
    rw [← @crossings_eq_nil _ _ _ threshold, ← List.getLast?_eq_none_iff]
    by_contra hne
    obtain ⟨c, hc⟩ := Option.ne_none_iff_exists'.mp hne
    rw [hc, Option.some_or, Option.some.injEq] at hlower
    exact absurd (rises_gt hasc.right ht (List.mem_of_getLast? hc)) (not_lt.mpr (hlower ▸ hle))
  have hrises : (crossings threshold (Rises threshold) (pre ++ [best])).getLast? = some lower := by
    rwa [crossings_eq_nil.mpr hnone, List.getLast?_nil, Option.none_or] at hlower
  have hfalls : (crossings threshold (Falls threshold) (best :: post)).getLast? = some upper := by
    cases hlast : (crossings threshold (Falls threshold) (best :: post)).getLast? with
    | some c =>
      rw [hlast, Option.some_or] at hupper
      exact hupper
    | none =>
      rw [hlast, Option.none_or] at hupper
      exact absurd (falls_lt hasc.left ht (List.mem_of_getLast? hupper)) (not_lt.mpr hge)
  intro x y hx hx' hon
  rcases on_append hon with hon | hon
  · exact le_of_last_rise hasc.left ht hrises hx hon
  · exact le_of_last_fall hasc.right ht hnone hfalls hx' hon

omit [IsStrictOrderedRing K] in
theorem above_left_of_not_rises (ht : threshold < best.y)
    (hnone : ¬ Somewhere (Rises threshold) (pre ++ best :: post)) :
    ∀ p ∈ pre ++ [best], threshold < p.y := by
  apply lt_of_not_rises _ ht
  rw [← @crossings_eq_nil _ _ _ threshold] at hnone ⊢
  rw [crossings_append] at hnone
  exact (List.append_eq_nil_iff.mp hnone).1

omit [IsStrictOrderedRing K] in
theorem above_right_of_not_falls (ht : threshold < best.y)
    (hnone : ¬ Somewhere (Falls threshold) (pre ++ best :: post)) :
    ∀ p ∈ best :: post, threshold < p.y := by
  apply lt_of_not_falls _ ht
  rw [← @crossings_eq_nil _ _ _ threshold] at hnone ⊢
  rw [crossings_append] at hnone
  exact (List.append_eq_nil_iff.mp hnone).2

theorem right_of_on (hasc : Ascending (pre ++ best :: post)) (ht : threshold < best.y)
    (habove : ∀ p ∈ pre, threshold < p.y) {x : K} (hon : On (pre ++ best :: post) x threshold) :
    best.x < x := by
  rcases on_append hon with hon | hon
  · have hall : ∀ p ∈ pre ++ [best], threshold < p.y := by
      intro p hp
      rcases List.mem_append.mp hp with hp | hp
      · exact habove p hp
      · exact List.mem_singleton.mp hp ▸ ht
    exact absurd (hon.lt_of_forall hasc.left hall) (lt_irrefl _)
  · apply lt_of_le_of_ne (hon.le_of_ascending hasc.right)
    rintro rfl
    exact ht.ne (hon.eq_first hasc.right)

theorem left_of_on (hasc : Ascending (pre ++ best :: post)) (ht : threshold < best.y)
    (habove : ∀ p ∈ post, threshold < p.y) {x : K} (hon : On (pre ++ best :: post) x threshold) :
    x < best.x := by
  rcases on_append hon with hon | hon
  · apply lt_of_le_of_ne (hon.ge_of_ascending hasc.left)
    rintro rfl
    exact ht.ne (hon.eq_last hasc.left)
  · have hall : ∀ p ∈ best :: post, threshold < p.y := by
      intro p hp
      rcases List.mem_cons.mp hp with rfl | hp
      · exact ht
      · exact habove p hp
    exact absurd (hon.lt_of_forall hasc.right hall) (lt_irrefl _)

/-- Around an interior maximum above the threshold the answer of the scan is bracketed or refused
exactly where the scan rises to the threshold and falls to it. -/
theorem bracketedOrRefused_iff (h : InteriorMaximum curve best) (ht : threshold < best.y) :
    BracketedOrRefused curve threshold best.x ↔
      Somewhere (Rises threshold) curve ∧ Somewhere (Falls threshold) curve := by
  obtain ⟨hasc, ⟨pre, post, hpre, hpost, rfl⟩, -⟩ := h
  obtain ⟨first, hhead⟩ := Option.ne_none_iff_exists'.mp fun h => hpre (List.head?_eq_none_iff.mp h)
  obtain ⟨last, hlast⟩ := Option.ne_none_iff_exists'.mp fun h =>
    hpost (List.getLast?_eq_none_iff.mp h)
  have hhead' : (pre ++ best :: post).head? = some first := by rw [List.head?_append, hhead]; rfl
  have hlast' : (pre ++ best :: post).getLast? = some last := by
    rw [List.getLast?_append, List.getLast?_cons, hlast]
    rfl
  have hspec := @profileCi_eq _ _ _ _ threshold _ _ hhead' hlast' best.x
  have hfirst : first.x < best.x := hasc.lt_of_mem_left (List.mem_of_head? hhead)
  have hlast : best.x < last.x := hasc.lt_of_mem_right (List.mem_of_getLast? hlast)
  constructor
  · rintro ⟨hanswer, -⟩
    by_contra hnot
    rcases not_and_or.mp hnot with hnone | hnone
    · have habove : ∀ p ∈ pre, threshold < p.y := fun p hp =>
        above_left_of_not_rises ht hnone p (List.mem_append_left _ hp)
      rcases hanswer with ⟨lower, upper, -, hbrackets⟩ | herror
      · have hright := right_of_on hasc ht habove hbrackets.on_lower
        exact absurd hbrackets.lower_le (not_le.mpr hright)
      · -- No bound is out of place: the lower one is the first power of the scan.
        have hupper : best.x ≤
            (crossings threshold (Falls threshold) (pre ++ best :: post)).getLast?.getD last.x := by
          cases hc : (crossings threshold (Falls threshold) (pre ++ best :: post)).getLast? with
          | none => exact hlast.le
          | some c =>
            have hon := on_of_mem_crossings (fun _ _ h => Or.inr h) hasc (List.mem_of_getLast? hc)
            exact (right_of_on hasc ht habove hon).le
        rw [hspec, crossings_eq_nil.mpr hnone] at herror
        simp [hfirst.le, hupper] at herror
    · have habove : ∀ p ∈ post, threshold < p.y := fun p hp =>
        above_right_of_not_falls ht hnone p (List.mem_cons_of_mem _ hp)
      rcases hanswer with ⟨lower, upper, -, hbrackets⟩ | herror
      · have hleft := left_of_on hasc ht habove hbrackets.on_upper
        exact absurd hbrackets.le_upper (not_le.mpr hleft)
      · have hlower : (crossings threshold (Rises threshold)
            (pre ++ best :: post)).getLast?.getD first.x ≤ best.x := by
          cases hc : (crossings threshold (Rises threshold) (pre ++ best :: post)).getLast? with
          | none => exact hfirst.le
          | some c =>
            have hon := on_of_mem_crossings (fun _ _ h => Or.inl h) hasc (List.mem_of_getLast? hc)
            exact (left_of_on hasc ht habove hon).le
        rw [hspec, crossings_eq_nil.mpr hnone] at herror
        simp [hlast.le, hlower] at herror
  · rintro ⟨hrises, hfalls⟩
    obtain ⟨lower, hlower⟩ := Option.ne_none_iff_exists'.mp fun h =>
      crossings_eq_nil.mp (List.getLast?_eq_none_iff.mp h) hrises
    obtain ⟨upper, hupper⟩ := Option.ne_none_iff_exists'.mp fun h =>
      crossings_eq_nil.mp (List.getLast?_eq_none_iff.mp h) hfalls
    rw [hlower, hupper, Option.getD_some, Option.getD_some] at hspec
    simp only at hspec
    split_ifs at hspec with hbounds
    · have hbrackets := brackets_of_bounds hasc ht hlower hupper hbounds.1 hbounds.2
      refine ⟨Or.inl ⟨lower, upper, hspec, hbrackets⟩, ?_⟩
      rintro (habove | habove)
      · have hright := right_of_on hasc ht
          (fun p hp => habove p (List.mem_append_left _ hp) (hasc.lt_of_mem_left hp))
          hbrackets.on_lower
        exact absurd hbounds.1 (not_le.mpr hright)
      · have hleft := left_of_on hasc ht
          (fun p hp => habove p (by simp [hp]) (hasc.lt_of_mem_right hp)) hbrackets.on_upper
        exact absurd hbounds.2 (not_le.mpr hleft)
    · exact ⟨Or.inr hspec, fun _ => hspec⟩

end Ordered

/-- What the scan is read with: an interior maximum, and a threshold below it. -/
theorem estimateTweediePower_eq [IsStrictOrderedRing K] {cutoff : K} {fit : TweediePowerFit K}
    (hasc : Ascending curve) (hfit : estimateTweediePower cutoff curve = .ok fit) :
    ∃ best, InteriorMaximum curve best ∧ best.x = fit.estimated_power ∧
      profileCi curve (best.y - cutoff / 2) best.x = .ok (fit.ci_lower, fit.ci_upper) := by
  simp only [estimateTweediePower, bind_eq_ok, require_eq_ok, ensure_eq_ok, exists_const,
    pure_eq_ok] at hfit
  obtain ⟨best, hbest, hhead, hlast, ⟨lo, hi⟩, hci, rfl⟩ := hfit
  have hmem : best ∈ curve := List.argmax_mem hbest
  refine ⟨best, ⟨hasc, ?_, fun p hp => List.le_of_mem_argmax hp hbest⟩, rfl, hci⟩
  obtain ⟨pre, post, rfl⟩ := List.append_of_mem hmem
  refine ⟨pre, post, ?_, ?_, rfl⟩
  · rintro rfl
    exact hhead rfl
  · rintro rfl
    exact hlast (by simp)

def hill : List (TweedieProfilePoint ℚ) := [⟨11 / 10, 0⟩, ⟨3 / 2, 10⟩, ⟨19 / 10, 0⟩]

theorem hill_ascending : Ascending hill := by
  simp only [Ascending, hill, List.pairwise_cons, List.mem_cons, List.not_mem_nil, or_false]
  norm_num

theorem hill_estimated : estimateTweediePower 10 hill = .ok ⟨3 / 2, 13 / 10, 17 / 10, hill⟩ := by
  with_unfolding_all rfl

theorem hill_interior : InteriorMaximum hill ⟨3 / 2, 10⟩ := by
  obtain ⟨best, hbest, hx, -⟩ := estimateTweediePower_eq hill_ascending hill_estimated
  have hmem : best ∈ hill := by
    obtain ⟨pre, post, -, -, heq⟩ := hbest.inside
    simp [heq]
  simp only [hill, List.mem_cons, List.not_mem_nil, or_false] at hmem
  rcases hmem with rfl | rfl | rfl
  · norm_num at hx
  · exact hbest
  · norm_num at hx

theorem hill_bracketed : BracketedOrRefused hill 5 (3 / 2) := by
  refine (@bracketedOrRefused_iff _ _ _ hill ⟨3 / 2, 10⟩ 5 _ hill_interior (by norm_num)).mpr
    ⟨?_, ?_⟩
  · exact ⟨⟨11 / 10, 0⟩, ⟨3 / 2, 10⟩, ⟨[], [⟨19 / 10, 0⟩], rfl⟩, by norm_num [Rises]⟩
  · exact ⟨⟨3 / 2, 10⟩, ⟨19 / 10, 0⟩, ⟨[⟨11 / 10, 0⟩], [], rfl⟩, by norm_num [Falls]⟩

def oneSided : List (TweedieProfilePoint ℚ) := [⟨11 / 10, 10⟩, ⟨3 / 2, 11⟩, ⟨19 / 10, 0⟩]

/-- The curve is above the threshold at the first power, which is returned as the lower bound. -/
theorem oneSided_returned : ¬ ∀ (curve : List (TweedieProfilePoint ℚ)) best threshold,
    InteriorMaximum curve best → threshold < best.y → BracketedOrRefused curve threshold best.x := by
  intro h
  have hinterior : InteriorMaximum oneSided ⟨3 / 2, 11⟩ := by
    refine ⟨?_, ⟨[⟨11 / 10, 10⟩], [⟨19 / 10, 0⟩], by simp, by simp, rfl⟩, ?_⟩
    · simp only [Ascending, oneSided, List.pairwise_cons, List.mem_cons, List.not_mem_nil, or_false]
      norm_num
    · simp only [oneSided, List.mem_cons, List.not_mem_nil, or_false]
      rintro p (rfl | rfl | rfl) <;> norm_num
  have herror := (h oneSided ⟨3 / 2, 11⟩ 9 hinterior (by norm_num)).refused (Or.inl ?_)
  · exact absurd herror (by with_unfolding_all decide)
  · simp only [oneSided, List.mem_cons, List.not_mem_nil, or_false]
    rintro p (rfl | rfl | rfl) <;> norm_num

end GiPricing.Modelling
