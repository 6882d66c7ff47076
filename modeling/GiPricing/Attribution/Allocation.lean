import GiPricing.Game.Apportion
import GiPricing.Game.Shapley
import Mathlib.Combinatorics.Colex

/-! # Attribution of a premium change

The change between two rating versions is attributed to groups of changes. A subset of the
groups is a bit mask, and the parts are the Shapley values in whole minor units.
-/

namespace GiPricing

open Nat Game

def bitCount (mask : ℕ) : ℕ := mask.bitIndices.length

/-- Add what each absent group adds to one subset, weighted by the orders that reach it. -/
def shapleyStep (v : ℕ → ℤ) (k : ℕ) (out : List ℤ) (mask : ℕ) : List ℤ :=
  out.mapIdx fun i p =>
    if mask.testBit i then p
    else p + weight k (bitCount mask) * (v (mask ||| 1 <<< i) - v mask)

/-- `_shapley_numerators`, over the masks of all subsets. -/
def shapleyNumerators (v : ℕ → ℤ) (k : ℕ) : List ℤ :=
  (List.range (2 ^ k)).foldl (shapleyStep v k) (List.replicate k 0)

/-- `_allocate`: integer parts of the numerators over `k!` by largest remainder. -/
def allocate (numerators : List ℤ) (k : ℕ) : List ℤ := apportion k ! numerators

def residual (total : ℤ) (isolated : List ℤ) : ℤ := total - isolated.sum

/-- A figure that does not sum to the total change; the figures are named for a portfolio only. -/
inductive AttributionFailure
  | parts (label : String) (figures : Option (ℤ × ℤ))
  | isolated (label : String) (figures : Option (ℤ × ℤ))
  deriving DecidableEq

/-- `_reconcile`: the parts sum to the total, and the isolated figures with the residual do too. -/
def reconcile (label : String) (parts : Option (List ℤ)) (total : ℤ) (isolated : List ℤ)
    (residual : ℤ) (figures : Bool) : Except AttributionFailure Unit :=
  if parts.any fun ps => ps.sum ≠ total then
    .error (.parts label (if figures then parts.map fun ps => (ps.sum, total) else none))
  else if isolated.sum + residual ≠ total then
    .error (.isolated label (if figures then some (isolated.sum + residual, total) else none))
  else .ok ()

/-! ## Masks as coalitions -/

section Masks

def maskGame (v : ℕ → ℤ) (S : Finset ℕ) : ℤ := v (∑ i ∈ S, 2 ^ i)

def shapleyValue (v : ℕ → ℤ) (k i : ℕ) : ℚ :=
  numerator (Finset.range k) (fun S => (maskGame v S : ℚ)) i / k !

variable {v : ℕ → ℤ} {k i mask : ℕ}

def coalition (mask : ℕ) : Finset ℕ := mask.bitIndices.toFinset

@[simp] theorem mem_coalition : i ∈ coalition mask ↔ mask.testBit i := by
  simp [coalition]

theorem maskGame_coalition (v : ℕ → ℤ) (mask : ℕ) : maskGame v (coalition mask) = v mask := by
  rw [maskGame, coalition, Finset.sum_toFinset_bitIndices_two_pow]

theorem card_coalition (mask : ℕ) : (coalition mask).card = bitCount mask := by
  rw [coalition, List.toFinset_card_of_nodup Nat.bitIndices_nodup, bitCount]

theorem coalition_insert (mask i : ℕ) : coalition (mask ||| 1 <<< i) = insert i (coalition mask) := by
  ext j
  simp only [mem_coalition, Finset.mem_insert, Nat.testBit_or, Nat.one_shiftLeft,
    Nat.testBit_two_pow, Bool.or_eq_true, decide_eq_true_eq]
  rw [or_comm, @eq_comm _ i]

theorem coalition_subset (h : mask < 2 ^ k) : coalition mask ⊆ Finset.range k := by
  intro j hj
  rw [mem_coalition] at hj
  rw [Finset.mem_range]
  by_contra hk
  rw [Nat.testBit_lt_two_pow (h.trans_le (Nat.pow_le_pow_right (by norm_num) (not_lt.mp hk)))] at hj
  cases hj

theorem coalition_full (k : ℕ) : coalition (2 ^ k - 1) = Finset.range k := by
  ext j
  simp

theorem coalition_zero : coalition 0 = ∅ := by
  simp [coalition]

theorem sum_masks (f : Finset ℕ → ℤ) (k i : ℕ) :
    ((List.range (2 ^ k)).map fun mask => if mask.testBit i then 0 else f (coalition mask)).sum =
      ∑ S ∈ ((Finset.range k).erase i).powerset, f S := by
  have hlist : ((List.range (2 ^ k)).map fun mask =>
      if mask.testBit i then 0 else f (coalition mask)).sum =
        ∑ mask ∈ Finset.range (2 ^ k), if mask.testBit i then 0 else f (coalition mask) := by
    rfl
  have hsplit : ∀ mask, (if mask.testBit i then 0 else f (coalition mask)) =
      if ¬ mask.testBit i then f (coalition mask) else 0 := fun mask => by
    split_ifs <;> simp_all
  rw [hlist, Finset.sum_congr rfl fun mask _ => hsplit mask, ← Finset.sum_filter]
  refine Finset.sum_bij' (fun mask _ => coalition mask) (fun S _ => ∑ i ∈ S, 2 ^ i) ?_ ?_ ?_ ?_ ?_
  · intro mask h
    simp only [Finset.mem_filter, Finset.mem_range] at h
    rw [Finset.mem_powerset, Finset.subset_erase]
    exact ⟨coalition_subset h.1, fun hi => h.2 (mem_coalition.mp hi)⟩
  · intro S h
    rw [Finset.mem_powerset, Finset.subset_erase] at h
    have hS : coalition (∑ i ∈ S, 2 ^ i) = S := Finset.toFinset_bitIndices_sum_two_pow S
    simp only [Finset.mem_filter, Finset.mem_range]
    refine ⟨?_, fun hi => h.2 (hS ▸ mem_coalition.mpr hi)⟩
    exact Nat.geomSum_lt le_rfl fun j hj => Finset.mem_range.mp (h.1 hj)
  · intro mask _
    exact Finset.sum_toFinset_bitIndices_two_pow mask
  · intro S _
    exact Finset.toFinset_bitIndices_sum_two_pow S
  · intro mask _
    rfl

end Masks

/-! ## The parts of a change -/

section Parts

variable {v : ℕ → ℤ} {k i j : ℕ}

theorem foldl_shapleyStep (masks : List ℕ) (out : List ℤ) :
    (masks.foldl (shapleyStep v k) out)[i]? = out[i]?.map fun p => p + (masks.map fun mask =>
      if mask.testBit i then (0 : ℤ)
      else weight k (bitCount mask) * (v (mask ||| 1 <<< i) - v mask)).sum := by
  induction masks generalizing out with
  | nil => simp
  | cons mask masks ih =>
    rw [List.foldl_cons, ih, shapleyStep, List.getElem?_mapIdx]
    cases out[i]? with
    | none => rfl
    | some p =>
      simp only [Option.map_some, List.map_cons, List.sum_cons, Option.some.injEq]
      split_ifs <;> omega

theorem shapleyNumerators_getElem? (hi : i < k) :
    (shapleyNumerators v k)[i]? = some (numerator (Finset.range k) (maskGame v) i) := by
  have hsum := sum_masks (fun S => weight k S.card * (maskGame v (insert i S) - maskGame v S)) k i
  simp only [card_coalition, ← coalition_insert, maskGame_coalition] at hsum
  rw [shapleyNumerators, foldl_shapleyStep, hsum, numerator, Finset.card_range]
  simp [hi]

theorem length_shapleyNumerators (v : ℕ → ℤ) (k : ℕ) : (shapleyNumerators v k).length = k := by
  have h : ∀ (masks : List ℕ) (out : List ℤ),
      (masks.foldl (shapleyStep v k) out).length = out.length := by
    intro masks
    induction masks with
    | nil => intro out; rfl
    | cons mask masks ih => intro out; rw [List.foldl_cons, ih, shapleyStep, List.length_mapIdx]
  rw [shapleyNumerators, h, List.length_replicate]

theorem sum_shapleyNumerators (v : ℕ → ℤ) (k : ℕ) :
    (shapleyNumerators v k).sum = k ! * (v (2 ^ k - 1) - v 0) := by
  have hmap : shapleyNumerators v k =
      (List.range k).map (numerator (Finset.range k) (maskGame v)) := by
    apply List.ext_getElem?
    intro i
    rcases lt_or_ge i k with hi | hi
    · rw [shapleyNumerators_getElem? hi]
      simp [hi]
    · rw [List.getElem?_eq_none (by rw [length_shapleyNumerators]; exact hi),
        List.getElem?_eq_none (by simpa using hi)]
  have hsum : ((List.range k).map (numerator (Finset.range k) (maskGame v))).sum =
      ∑ i ∈ Finset.range k, numerator (Finset.range k) (maskGame v) i := rfl
  rw [hmap, hsum, sum_numerator, Finset.card_range, ← coalition_full, maskGame_coalition,
    ← coalition_zero, maskGame_coalition]

theorem numerator_cast (v : ℕ → ℤ) (k i : ℕ) :
    numerator (Finset.range k) (fun S => (maskGame v S : ℚ)) i =
      (numerator (Finset.range k) (maskGame v) i : ℤ) := by
  simp [numerator]

/-- A part is a rounding of the exact value, and the value itself where that is whole. -/
structure RoundsValue (part : ℤ) (value : ℚ) : Prop where
  floor_or_ceil : part = ⌊value⌋ ∨ part = ⌈value⌉
  exact : ∀ n : ℤ, value = n → part = n

theorem roundsValue_of_floor {part p : ℤ} (h : part = p / k ! ∨ part = p / k ! + 1 ∧ 0 < p % k !) :
    RoundsValue part (p / k ! : ℚ) := by
  have hk : (0 : ℤ) < k ! := by exact_mod_cast Nat.factorial_pos k
  have hfloor : ⌊(p / k ! : ℚ)⌋ = p / k ! := by
    have := Rat.floor_intCast_div_natCast p (k !)
    exact this
  have hpos : 0 < p % k ! → ⌈(p / k ! : ℚ)⌉ = p / k ! + 1 ∧ ∀ n : ℤ, (p / k ! : ℚ) ≠ n := by
    intro hr
    have hne : ∀ n : ℤ, (p / k ! : ℚ) ≠ n := by
      intro n hn
      have hq : (k ! : ℚ) ≠ 0 := by exact_mod_cast hk.ne'
      have hp : p = n * k ! := by
        rw [div_eq_iff hq] at hn
        exact_mod_cast hn
      rw [hp, Int.mul_emod_left] at hr
      exact lt_irrefl _ hr
    refine ⟨?_, hne⟩
    rw [Int.ceil_eq_iff, ← hfloor]
    have hlt : (⌊(p / k ! : ℚ)⌋ : ℚ) < p / k ! :=
      lt_of_le_of_ne (Int.floor_le _) (Ne.symm (hne _))
    push_cast
    exact ⟨by linarith, (Int.lt_floor_add_one _).le⟩
  rcases h with rfl | ⟨rfl, hr⟩
  · exact ⟨Or.inl hfloor.symm, fun n hn => by rw [← hfloor, hn, Int.floor_intCast]⟩
  · obtain ⟨hceil, hne⟩ := hpos hr
    exact ⟨Or.inr hceil.symm, fun n hn => absurd hn (hne n)⟩

theorem allocate_getElem? (hi : i < k) :
    ∃ part p : ℤ, (allocate (shapleyNumerators v k) k)[i]? = some part ∧
      shapleyValue v k i = p / k ! ∧ (part = p / k ! ∨ part = p / k ! + 1 ∧ 0 < p % k !) := by
  have hk : (0 : ℤ) < k ! := by exact_mod_cast Nat.factorial_pos k
  obtain ⟨part, hpart, hround⟩ := apportion_getElem? hk (@shapleyNumerators_getElem? v k i hi)
  exact ⟨part, _, hpart, by rw [shapleyValue, numerator_cast], hround⟩

theorem shapleyValue_null (h : ∀ mask < 2 ^ k, v (mask ||| 1 <<< i) = v mask) :
    shapleyValue v k i = 0 := by
  have hzero : numerator (Finset.range k) (maskGame v) i = 0 := by
    refine Finset.sum_eq_zero fun S hS => ?_
    rw [Finset.mem_powerset, Finset.subset_erase] at hS
    have hmask := h (∑ j ∈ S, 2 ^ j)
      (Nat.geomSum_lt le_rfl fun j hj => Finset.mem_range.mp (hS.1 hj))
    have hS' : coalition (∑ j ∈ S, 2 ^ j) = S := Finset.toFinset_bitIndices_sum_two_pow S
    rw [← maskGame_coalition v (_ ||| _), coalition_insert, hS'] at hmask
    rw [hmask, maskGame, sub_self, mul_zero]
  rw [shapleyValue, numerator_cast, hzero, Int.cast_zero, zero_div]

/-- The parts sum to the total change, each rounds its group's exact value and keeps a whole one,
groups of equal value differ by at most one unit, and no reconciliation fails. -/
theorem allocate_shapleyNumerators (v : ℕ → ℤ) (k : ℕ) :
    (allocate (shapleyNumerators v k) k).sum = v (2 ^ k - 1) - v 0 ∧
    (∀ i < k, ∃ part, (allocate (shapleyNumerators v k) k)[i]? = some part ∧
      RoundsValue part (shapleyValue v k i) ∧
      ((∀ mask < 2 ^ k, v (mask ||| 1 <<< i) = v mask) → part = 0)) ∧
    (∀ i < k, ∀ j < k, shapleyValue v k i = shapleyValue v k j → ∀ a b,
      (allocate (shapleyNumerators v k) k)[i]? = some a →
      (allocate (shapleyNumerators v k) k)[j]? = some b → |a - b| ≤ 1) ∧
    ∀ label isolated figures, reconcile label (some (allocate (shapleyNumerators v k) k))
      (v (2 ^ k - 1) - v 0) isolated (residual (v (2 ^ k - 1) - v 0) isolated) figures = .ok () := by
  have hk : (0 : ℤ) < k ! := by exact_mod_cast Nat.factorial_pos k
  have hsum : (allocate (shapleyNumerators v k) k).sum = v (2 ^ k - 1) - v 0 := by
    rw [allocate, sum_apportion hk, sum_shapleyNumerators, Int.mul_ediv_cancel_left _ hk.ne']
  refine ⟨hsum, ?_, ?_, ?_⟩
  · intro i hi
    obtain ⟨part, p, hpart, hvalue, hround⟩ := @allocate_getElem? v k i hi
    have hr : RoundsValue part (shapleyValue v k i) := hvalue ▸ roundsValue_of_floor hround
    exact ⟨part, hpart, hr, fun h => hr.exact 0 (by rw [shapleyValue_null h, Int.cast_zero])⟩
  · intro i hi j hj hij a b ha hb
    obtain ⟨part, p, hpart, hvalue, hround⟩ := @allocate_getElem? v k i hi
    obtain ⟨part', p', hpart', hvalue', hround'⟩ := @allocate_getElem? v k j hj
    obtain rfl : part = a := Option.some.inj (hpart.symm.trans ha)
    obtain rfl : part' = b := Option.some.inj (hpart'.symm.trans hb)
    have hpp : p = p' := by
      rw [hvalue, hvalue', div_left_inj' (by exact_mod_cast hk.ne')] at hij
      exact_mod_cast hij
    subst hpp
    rw [abs_le]
    omega
  · intro label isolated figures
    simp [reconcile, hsum, residual]

end Parts

end GiPricing
