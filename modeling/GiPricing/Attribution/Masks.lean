import GiPricing.Attribution.Allocation
import GiPricing.Failure.Lists
import Mathlib.Data.Finset.Sort

/-! # The subsets an attribution rates

The masks to rate are listed before any is rated. What is read afterwards for a policy is read from
the masks that were listed, so a mask that is missing is a failure and one that is not read is paid
for.
-/

namespace GiPricing

open Nat Game Failure

/-- `_MAX_SHAPLEY_GROUPS` -/
def maxShapleyGroups : ℕ := 6

def fullMask (k : ℕ) : ℕ := (1 <<< k) - 1

def forwardMask (size : ℕ) : ℕ := (1 <<< size) - 1

def reverseMask (k size : ℕ) : ℕ := fullMask k ^^^ ((1 <<< (k - size)) - 1)

def wantedMasks (k : ℕ) : Finset ℕ :=
  {0, fullMask k} ∪ (Finset.range k).image (1 <<< ·) ∪ (Finset.Ico 2 k).image forwardMask ∪
    (Finset.Ico 2 k).image (reverseMask k)

/-- `_masks_to_rate` -/
def masksToRate (k : ℕ) : List ℕ :=
  if k ≤ maxShapleyGroups then List.range (fullMask k + 1) else (wantedMasks k).sort

/-- `estimate_attribution_ratings` -/
def estimateAttributionRatings (k policies : ℕ) (grouped : Bool) : Option ℕ :=
  if grouped = true ∧ maxShapleyGroups < k then none
  else some ((if k ≤ maxShapleyGroups then 2 ^ k else 3 * k - 2) * policies)

/-! ## The figures of a policy -/

/-- What one policy adds to each group and to the totals. -/
structure PolicyFigures where
  baseline : ℤ
  total : ℤ
  isolated : List ℤ
  cumulative : List ℤ
  reverse : List ℤ
  parts : Option (List ℤ)

def look (masks : List ℕ) (v : ℕ → ℤ) (mask : ℕ) : Option ℤ :=
  if mask ∈ masks then some (v mask) else none

/-- What each absent group adds to one subset, read from the rated masks. -/
def shapleyStep? (masks : List ℕ) (v : ℕ → ℤ) (k : ℕ) (out : List ℤ) (mask : ℕ) :
    Option (List ℤ) := do
  let joined ← ((List.range k).filter fun i => !mask.testBit i).mapM fun i =>
    (look masks v (mask ||| 1 <<< i)).map (i, ·)
  let base ← look masks v mask
  return out.mapIdx fun i p => match joined.lookup i with
    | none => p
    | some joint => p + weight k (bitCount mask) * (joint - base)

/-- A figure for each group, as the difference of two masks. -/
def differences (masks : List ℕ) (v : ℕ → ℤ) (k : ℕ) (upper lower : ℕ → ℕ) : Option (List ℤ) :=
  (List.range k).mapM fun i => do
    let a ← look masks v (upper i)
    let b ← look masks v (lower i)
    return a - b

/-- The last groups after the first `i`. -/
def tailMask (k i : ℕ) : ℕ := fullMask k ^^^ ((1 <<< i) - 1)

/-- The Shapley parts, of at most six groups. -/
def shapleyParts (masks : List ℕ) (v : ℕ → ℤ) (k : ℕ) : Option (Option (List ℤ)) :=
  if k ≤ maxShapleyGroups then
    (masks.foldlM (shapleyStep? masks v k) (List.replicate k 0)).map fun p => some (allocate p k)
  else some none

/-- The body of the loop over the compared policies. -/
def policyFigures (masks : List ℕ) (v : ℕ → ℤ) (k : ℕ) : Option PolicyFigures := do
  let candidate ← look masks v (fullMask k)
  let baseline ← look masks v 0
  let isolated ← differences masks v k (1 <<< ·) fun _ => 0
  let cumulative ← differences masks v k (fun i => (1 <<< (i + 1)) - 1) fun i => (1 <<< i) - 1
  let parts ← shapleyParts masks v k
  let reverse ← differences masks v k (tailMask k) fun i => tailMask k (i + 1)
  return ⟨baseline, candidate - baseline, isolated, cumulative, reverse, parts⟩

def addUp (k : ℕ) (rows : List (List ℤ)) : List ℤ :=
  rows.foldl (List.zipWith (· + ·)) (List.replicate k 0)

structure BookFigures where
  baselineTotal : ℤ
  totalChange : ℤ
  isolatedSum : List ℤ
  cumulativeSum : List ℤ
  reverseSum : List ℤ
  partSum : List ℤ

/-- What `attribute` adds up over the compared policies, each with its premium under each mask. -/
def bookFigures (k : ℕ) (book : List (ℕ → ℤ)) : Option BookFigures := do
  let figures ← book.mapM fun v => policyFigures (masksToRate k) v k
  return { baselineTotal := (figures.map PolicyFigures.baseline).sum
           totalChange := (figures.map PolicyFigures.total).sum
           isolatedSum := addUp k (figures.map PolicyFigures.isolated)
           cumulativeSum := addUp k (figures.map PolicyFigures.cumulative)
           reverseSum := addUp k (figures.map PolicyFigures.reverse)
           partSum := addUp k (figures.filterMap PolicyFigures.parts) }

/-- The masks read for a policy, in turn. -/
def masksRead (masks : List ℕ) (k : ℕ) : List ℕ :=
  [fullMask k, 0] ++ (List.range k).flatMap (fun i => [1 <<< i, 0]) ++
    (List.range k).flatMap (fun i => [(1 <<< (i + 1)) - 1, (1 <<< i) - 1]) ++
    (if k ≤ maxShapleyGroups then masks.flatMap fun mask =>
        mask :: ((List.range k).filter fun i => !mask.testBit i).map (mask ||| 1 <<< ·)
      else []) ++
    (List.range k).flatMap fun i => [tailMask k i, tailMask k (i + 1)]

section Reads

variable {masks : List ℕ} {v : ℕ → ℤ} {k mask : ℕ}

theorem isSome_look : (look masks v mask).isSome = true ↔ mask ∈ masks := by
  unfold look
  split_ifs with h <;> simp [h]

theorem isSome_differences {upper lower : ℕ → ℕ} :
    (differences masks v k upper lower).isSome = true ↔
      ∀ mask ∈ (List.range k).flatMap fun i => [upper i, lower i], mask ∈ masks := by
  rw [differences, isSome_mapM, List.forall_mem_flatMap]
  apply forall₂_congr
  intro i _
  rw [List.forall_mem_cons, List.forall_mem_singleton, ← @isSome_look masks v (upper i),
    ← @isSome_look masks v (lower i)]
  exact isSome_bind_iff fun _ => by cases look masks v (lower i) <;> simp

theorem isSome_shapleyStep? {out : List ℤ} :
    (shapleyStep? masks v k out mask).isSome = true ↔
      ∀ m ∈ mask :: ((List.range k).filter fun i => !mask.testBit i).map (mask ||| 1 <<< ·),
        m ∈ masks := by
  have hjoined : (((List.range k).filter fun i => !mask.testBit i).mapM fun i =>
      (look masks v (mask ||| 1 <<< i)).map (i, ·)).isSome = true ↔
        ∀ m ∈ ((List.range k).filter fun i => !mask.testBit i).map (mask ||| 1 <<< ·),
          m ∈ masks := by
    rw [isSome_mapM, List.forall_mem_map]
    simp only [Option.isSome_map, isSome_look]
  rw [List.forall_mem_cons, and_comm, ← hjoined, ← @isSome_look masks v mask]
  exact isSome_bind_iff fun _ => by cases look masks v mask <;> simp

theorem isSome_policyFigures : (policyFigures masks v k).isSome = true ↔
    ∀ mask ∈ masksRead masks k, mask ∈ masks := by
  have hparts : (shapleyParts masks v k).isSome = true ↔
      ∀ mask ∈ (if k ≤ maxShapleyGroups then masks.flatMap fun mask =>
        mask :: ((List.range k).filter fun i => !mask.testBit i).map (mask ||| 1 <<< ·)
          else []), mask ∈ masks := by
    unfold shapleyParts
    split_ifs
    · rw [Option.isSome_map, List.forall_mem_flatMap]
      exact isSome_foldlM fun _ _ => isSome_shapleyStep?
    · simp
  have htotal : (∀ mask ∈ [fullMask k, 0], mask ∈ masks) ↔
      (look masks v (fullMask k)).isSome = true ∧ (look masks v 0).isSome = true := by
    simp [isSome_look]
  simp only [masksRead, List.forall_mem_append, htotal, and_assoc, ← hparts,
    ← @isSome_differences masks v]
  refine isSome_bind_iff fun _ => isSome_bind_iff fun _ => isSome_bind_iff fun _ =>
    isSome_bind_iff fun _ => isSome_bind_iff fun _ => ?_
  cases differences masks v k (tailMask k) fun i => tailMask k (i + 1) <;> simp

/-! ## The listed masks -/

theorem testBit_fullMask {i : ℕ} : (fullMask k).testBit i = decide (i < k) := by
  simp [fullMask, Nat.shiftLeft_eq]

theorem testBit_single {i j : ℕ} : (1 <<< j : ℕ).testBit i = decide (j = i) := by
  simp [Nat.shiftLeft_eq, Nat.testBit_two_pow]

theorem testBit_forwardMask {size i : ℕ} : (forwardMask size).testBit i = decide (i < size) :=
  testBit_fullMask

theorem testBit_tailMask {i j : ℕ} (hj : j ≤ k) :
    (tailMask k j).testBit i = decide (j ≤ i ∧ i < k) := by
  have hmask : (1 <<< j : ℕ) - 1 = fullMask j := rfl
  rw [tailMask, Nat.testBit_xor, testBit_fullMask, hmask, testBit_fullMask]
  by_cases hik : i < k <;> by_cases hij : i < j <;> simp [hik, hij] <;> omega

@[simp] theorem tailMask_zero : tailMask k 0 = fullMask k := by simp [tailMask]

@[simp] theorem tailMask_self : tailMask k k = 0 := by simp [tailMask, fullMask]

theorem tailMask_pred {i : ℕ} (h : i + 1 = k) : tailMask k i = 1 <<< i := by
  apply Nat.eq_of_testBit_eq
  intro j
  rw [testBit_tailMask (by omega), testBit_single, decide_eq_decide]
  omega

theorem reverseMask_eq {size : ℕ} : reverseMask k size = tailMask k (k - size) := rfl

theorem mem_wantedMasks : mask ∈ wantedMasks k ↔ mask = 0 ∨ mask = fullMask k ∨
    (∃ i < k, mask = 1 <<< i) ∨ (∃ size, 2 ≤ size ∧ size < k ∧ mask = forwardMask size) ∨
      ∃ size, 2 ≤ size ∧ size < k ∧ mask = reverseMask k size := by
  simp only [wantedMasks, Finset.mem_union, Finset.mem_insert, Finset.mem_singleton,
    Finset.mem_image, Finset.mem_range, Finset.mem_Ico, eq_comm, and_assoc, or_assoc]

theorem lt_of_testBit (h : ∀ i, mask.testBit i = true → i < k) : mask < 2 ^ k := by
  apply Nat.lt_pow_two_of_testBit
  intro i hi
  by_contra hne
  have := h i (Bool.not_eq_false _ ▸ hne)
  omega

theorem testBit_bound (hmask : mask < 2 ^ k) {i : ℕ} (h : mask.testBit i = true) : i < k := by
  by_contra hle
  rw [Nat.testBit_lt_two_pow (hmask.trans_le (Nat.pow_le_pow_right two_pos (not_lt.mp hle)))] at h
  cases h

theorem mem_masksRead : mask ∈ masksRead masks k ↔
    mask = fullMask k ∨ mask = 0 ∨ (∃ i < k, mask = 1 <<< i ∨ mask = 0) ∨
      (∃ i < k, mask = forwardMask (i + 1) ∨ mask = forwardMask i) ∨
      (k ≤ maxShapleyGroups ∧ ∃ m ∈ masks, mask = m ∨
        ∃ i < k, m.testBit i = false ∧ mask = m ||| 1 <<< i) ∨
      ∃ i < k, mask = tailMask k i ∨ mask = tailMask k (i + 1) := by
  have hparts : mask ∈ (if k ≤ maxShapleyGroups then masks.flatMap fun mask =>
        mask :: ((List.range k).filter fun i => !mask.testBit i).map (mask ||| 1 <<< ·)
      else []) ↔ k ≤ maxShapleyGroups ∧ ∃ m ∈ masks, mask = m ∨
        ∃ i < k, m.testBit i = false ∧ mask = m ||| 1 <<< i := by
    split_ifs with h
    · simp only [List.mem_flatMap, List.mem_cons, List.mem_map, List.mem_filter, List.mem_range,
        Bool.not_eq_true', h, true_and, and_assoc, @eq_comm _ mask]
    · simp [h]
  simp only [masksRead, List.mem_append, hparts, List.mem_cons, List.not_mem_nil, or_false,
    List.mem_flatMap, List.mem_range, or_assoc, forwardMask]

/-- What is read of more than six groups is what is listed. -/
theorem mem_masksRead_iff_wanted (hk : maxShapleyGroups < k) :
    mask ∈ masksRead masks k ↔ mask ∈ wantedMasks k := by
  have hk : 6 < k := hk
  rw [mem_masksRead, mem_wantedMasks]
  constructor
  · rintro (rfl | rfl | ⟨i, hi, rfl | rfl⟩ | ⟨i, hi, h⟩ | ⟨hle, -⟩ | ⟨i, hi, h⟩)
    · exact .inr (.inl rfl)
    · exact .inl rfl
    · exact .inr (.inr (.inl ⟨i, hi, rfl⟩))
    · exact .inl rfl
    · obtain ⟨size, hsize, rfl⟩ : ∃ size ≤ k, mask = forwardMask size := by
        rcases h with rfl | rfl
        · exact ⟨i + 1, hi, rfl⟩
        · exact ⟨i, hi.le, rfl⟩
      by_cases hzero : size = 0
      · rw [hzero]
        exact .inl rfl
      · by_cases hone : size = 1
        · rw [hone]
          exact .inr (.inr (.inl ⟨0, by omega, rfl⟩))
        · by_cases hfull : size = k
          · rw [hfull]
            exact .inr (.inl rfl)
          · exact .inr (.inr (.inr (.inl ⟨size, by omega, by omega, rfl⟩)))
    · exact absurd hle (not_le.mpr hk)
    · obtain ⟨j, hj, rfl⟩ : ∃ j ≤ k, mask = tailMask k j := by
        rcases h with rfl | rfl
        · exact ⟨i, hi.le, rfl⟩
        · exact ⟨i + 1, hi, rfl⟩
      by_cases hzero : j = 0
      · exact .inr (.inl (hzero ▸ tailMask_zero))
      · by_cases hself : j = k
        · exact .inl (hself ▸ tailMask_self)
        · by_cases hpred : j + 1 = k
          · exact .inr (.inr (.inl ⟨j, by omega, tailMask_pred hpred⟩))
          · refine .inr (.inr (.inr (.inr ⟨k - j, by omega, by omega, ?_⟩)))
            rw [reverseMask_eq, Nat.sub_sub_self hj]
  · rintro (rfl | rfl | ⟨i, hi, rfl⟩ | ⟨size, _, hsize, rfl⟩ | ⟨size, hpos, hsize, rfl⟩)
    · exact .inr (.inl rfl)
    · exact .inl rfl
    · exact .inr (.inr (.inl ⟨i, hi, .inl rfl⟩))
    · exact .inr (.inr (.inr (.inl ⟨size, hsize, .inr rfl⟩)))
    · exact .inr (.inr (.inr (.inr (.inr ⟨k - size, by omega, .inl reverseMask_eq⟩))))

/-- What is read of up to six groups is every mask. -/
theorem mem_masksRead_iff_lt (hk : k ≤ maxShapleyGroups) :
    mask ∈ masksRead (List.range (2 ^ k)) k ↔ mask < 2 ^ k := by
  rw [mem_masksRead]
  constructor
  · intro h
    apply lt_of_testBit
    intro j hj
    rcases h with rfl | rfl | ⟨i, hi, rfl | rfl⟩ | ⟨i, hi, rfl | rfl⟩ | ⟨-, m, hm, h⟩ |
      ⟨i, hi, rfl | rfl⟩
    · exact of_decide_eq_true (testBit_fullMask ▸ hj)
    · simp at hj
    · have := of_decide_eq_true (testBit_single ▸ hj)
      omega
    · simp at hj
    · have := of_decide_eq_true (testBit_forwardMask ▸ hj)
      omega
    · have := of_decide_eq_true (testBit_forwardMask ▸ hj)
      omega
    · have hm := List.mem_range.mp hm
      rcases h with rfl | ⟨i, hi, -, rfl⟩
      · exact testBit_bound hm hj
      · rw [Nat.testBit_or, Bool.or_eq_true] at hj
        rcases hj with hj | hj
        · exact testBit_bound hm hj
        · have := of_decide_eq_true (testBit_single ▸ hj)
          omega
    · have := of_decide_eq_true (testBit_tailMask hi.le ▸ hj)
      omega
    · have := of_decide_eq_true (testBit_tailMask hi ▸ hj)
      omega
  · intro h
    exact .inr (.inr (.inr (.inr (.inl ⟨hk, mask, List.mem_range.mpr h, .inl rfl⟩))))

theorem masksToRate_of_le (hk : k ≤ maxShapleyGroups) : masksToRate k = List.range (2 ^ k) := by
  rw [masksToRate, if_pos hk, fullMask, Nat.one_shiftLeft, Nat.sub_add_cancel Nat.one_le_two_pow]

theorem masksToRate_of_lt (hk : maxShapleyGroups < k) : masksToRate k = (wantedMasks k).sort :=
  if_neg (not_le.mpr hk)

theorem mem_masksToRate_iff_read :
    mask ∈ masksToRate k ↔ mask ∈ masksRead (masksToRate k) k := by
  by_cases hk : k ≤ maxShapleyGroups
  · rw [masksToRate_of_le hk, mem_masksRead_iff_lt hk, List.mem_range]
  · rw [mem_masksRead_iff_wanted (not_le.mp hk), masksToRate_of_lt (not_le.mp hk), Finset.mem_sort]

theorem nodup_masksToRate : (masksToRate k).Nodup := by
  by_cases hk : k ≤ maxShapleyGroups
  · rw [masksToRate_of_le hk]
    exact List.nodup_range
  · rw [masksToRate_of_lt (not_le.mp hk)]
    exact Finset.sort_nodup _ _

/-! ## How many are listed -/

def spanMask (a b : ℕ) : ℕ := tailMask b a

theorem spanMask_injective {a b c d : ℕ} (hab : a < b) (hcd : c < d)
    (h : spanMask a b = spanMask c d) : a = c ∧ b = d := by
  have hbit : ∀ i, (a ≤ i ∧ i < b) ↔ (c ≤ i ∧ i < d) := by
    intro i
    rw [← decide_eq_decide, ← testBit_tailMask hab.le, ← testBit_tailMask hcd.le]
    exact congrArg (Nat.testBit · i) h
  have ha := hbit a
  have hc := hbit c
  have hb := hbit (b - 1)
  have hd := hbit (d - 1)
  omega

/-- The ends of the listed masks that are not empty. -/
def spans (k : ℕ) : Finset (ℕ × ℕ) :=
  insert (0, k) ((Finset.range k).image (fun i => (i, i + 1)) ∪
    ((Finset.Ico 2 k).image (fun size => (0, size)) ∪
      (Finset.Ico 2 k).image fun size => (k - size, k)))

theorem mem_spans {p : ℕ × ℕ} : p ∈ spans k ↔ p = (0, k) ∨ (∃ i < k, p = (i, i + 1)) ∨
    (∃ size, 2 ≤ size ∧ size < k ∧ p = (0, size)) ∨
      ∃ size, 2 ≤ size ∧ size < k ∧ p = (k - size, k) := by
  simp only [spans, Finset.mem_insert, Finset.mem_union, Finset.mem_image, Finset.mem_range,
    Finset.mem_Ico, @eq_comm _ _ p, and_assoc]

theorem card_spans (hk : 2 ≤ k) : (spans k).card = 3 * k - 3 := by
  have hsingle : ((Finset.range k).image fun i => (i, i + 1)).card = k := by
    rw [Finset.card_image_of_injective _ fun i j h => (Prod.mk.inj h).1, Finset.card_range]
  have hforward : ((Finset.Ico 2 k).image fun size => (0, size)).card = k - 2 := by
    rw [Finset.card_image_of_injective _ fun i j h => (Prod.mk.inj h).2, Nat.card_Ico]
  have hreverse : ((Finset.Ico 2 k).image fun size => (k - size, k)).card = k - 2 := by
    rw [Finset.card_image_of_injOn, Nat.card_Ico]
    intro i hi j hj h
    have hi := Finset.mem_Ico.mp hi
    have hj := Finset.mem_Ico.mp hj
    have := (Prod.mk.inj h).1
    omega
  have hends : Disjoint ((Finset.Ico 2 k).image fun size => (0, size))
      ((Finset.Ico 2 k).image fun size => (k - size, k)) := by
    rw [Finset.disjoint_left]
    intro p hp hp'
    simp only [Finset.mem_image, Finset.mem_Ico] at hp hp'
    obtain ⟨i, hi, rfl⟩ := hp
    obtain ⟨j, hj, h⟩ := hp'
    have := (Prod.mk.inj h).1
    omega
  have hsingles : Disjoint ((Finset.range k).image fun i => (i, i + 1))
      ((Finset.Ico 2 k).image (fun size => (0, size)) ∪
        (Finset.Ico 2 k).image fun size => (k - size, k)) := by
    rw [Finset.disjoint_left]
    intro p hp hp'
    simp only [Finset.mem_union, Finset.mem_image, Finset.mem_Ico, Finset.mem_range] at hp hp'
    obtain ⟨i, hi, rfl⟩ := hp
    rcases hp' with ⟨j, hj, h⟩ | ⟨j, hj, h⟩
    all_goals
      obtain ⟨h1, h2⟩ := Prod.mk.inj h
      omega
  have hfull : (0, k) ∉ (Finset.range k).image (fun i => (i, i + 1)) ∪
      ((Finset.Ico 2 k).image (fun size => (0, size)) ∪
        (Finset.Ico 2 k).image fun size => (k - size, k)) := by
    simp only [Finset.mem_union, Finset.mem_image, Finset.mem_Ico, Finset.mem_range, Prod.mk.injEq]
    rintro (⟨i, hi, h1, h2⟩ | ⟨j, hj, h1, h2⟩ | ⟨j, hj, h1, h2⟩) <;> omega
  rw [spans, Finset.card_insert_of_notMem hfull, Finset.card_union_of_disjoint hsingles,
    Finset.card_union_of_disjoint hends, hsingle, hforward, hreverse]
  omega

theorem wantedMasks_eq_spans :
    wantedMasks k = insert 0 ((spans k).image fun p => spanMask p.1 p.2) := by
  ext mask
  simp only [mem_wantedMasks, Finset.mem_insert, Finset.mem_image, mem_spans]
  have hsingle : ∀ i, spanMask i (i + 1) = 1 <<< i := fun i => tailMask_pred rfl
  constructor
  · rintro (rfl | rfl | ⟨i, hi, rfl⟩ | ⟨size, h2, hsize, rfl⟩ | ⟨size, h2, hsize, rfl⟩)
    · exact .inl rfl
    · exact .inr ⟨(0, k), .inl rfl, tailMask_zero⟩
    · exact .inr ⟨(i, i + 1), .inr (.inl ⟨i, hi, rfl⟩), hsingle i⟩
    · exact .inr ⟨(0, size), .inr (.inr (.inl ⟨size, h2, hsize, rfl⟩)), tailMask_zero⟩
    · exact .inr ⟨(k - size, k), .inr (.inr (.inr ⟨size, h2, hsize, rfl⟩)), rfl⟩
  · rintro (rfl | ⟨p, rfl | ⟨i, hi, rfl⟩ | ⟨size, h2, hsize, rfl⟩ | ⟨size, h2, hsize, rfl⟩, rfl⟩)
    · exact .inl rfl
    · exact .inr (.inl tailMask_zero)
    · exact .inr (.inr (.inl ⟨i, hi, hsingle i⟩))
    · exact .inr (.inr (.inr (.inl ⟨size, h2, hsize, tailMask_zero⟩)))
    · exact .inr (.inr (.inr (.inr ⟨size, h2, hsize, rfl⟩)))

theorem spans_lt {p : ℕ × ℕ} (hk : 2 ≤ k) (hp : p ∈ spans k) : p.1 < p.2 := by
  have hpos : 0 < k := two_pos.trans_le hk
  rcases mem_spans.mp hp with rfl | ⟨i, hi, rfl⟩ | ⟨size, h2, hsize, rfl⟩ | ⟨size, h2, hsize, rfl⟩
  all_goals simp only
  all_goals omega

theorem card_wantedMasks (hk : 2 ≤ k) : (wantedMasks k).card = 3 * k - 2 := by
  have hzero : 0 ∉ (spans k).image fun p => spanMask p.1 p.2 := by
    rw [Finset.mem_image]
    rintro ⟨p, hp, h⟩
    have hbit : (spanMask p.1 p.2).testBit p.1 = true := by
      rw [spanMask, testBit_tailMask (spans_lt hk hp).le]
      simpa using spans_lt hk hp
    rw [h] at hbit
    simp at hbit
  have hinj : Set.InjOn (fun p : ℕ × ℕ => spanMask p.1 p.2) (spans k) := by
    intro p hp q hq h
    obtain ⟨h1, h2⟩ := spanMask_injective (spans_lt hk hp) (spans_lt hk hq) h
    exact Prod.ext h1 h2
  rw [wantedMasks_eq_spans, Finset.card_insert_of_notMem hzero, Finset.card_image_of_injOn hinj,
    card_spans hk]
  omega

theorem length_masksToRate :
    (masksToRate k).length = if k ≤ maxShapleyGroups then 2 ^ k else 3 * k - 2 := by
  split_ifs with hk
  · rw [masksToRate_of_le hk, List.length_range]
  · have hk : 6 < k := not_le.mp hk
    rw [masksToRate_of_lt hk, Finset.length_sort, card_wantedMasks (by omega)]

/-! ## The cumulative parts -/

theorem look_of_mem (h : mask ∈ masks) : look masks v mask = some (v mask) := if_pos h

theorem differences_of_mem {upper lower : ℕ → ℕ}
    (h : ∀ i < k, upper i ∈ masks ∧ lower i ∈ masks) :
    differences masks v k upper lower =
      some ((List.range k).map fun i => v (upper i) - v (lower i)) := by
  apply mapM_eq_some_map
  intro i hi
  obtain ⟨hu, hl⟩ := h i (List.mem_range.mp hi)
  rw [look_of_mem hu, look_of_mem hl]
  rfl

theorem addUp_map {α : Type} (g : α → ℕ → ℤ) (book : List α) :
    addUp k (book.map fun a => (List.range k).map (g a)) =
      (List.range k).map fun i => (book.map fun a => g a i).sum := by
  have hfold : ∀ acc : ℕ → ℤ, (book.map fun a => (List.range k).map (g a)).foldl
      (List.zipWith (· + ·)) ((List.range k).map acc) =
        (List.range k).map fun i => acc i + (book.map fun a => g a i).sum := by
    induction book with
    | nil => simp
    | cons a book ih =>
      intro acc
      rw [List.map_cons, List.foldl_cons, List.zipWith_map, List.zipWith_self, ih]
      simp only [List.map_cons, List.sum_cons, add_assoc]
  have hzero : List.replicate k (0 : ℤ) = (List.range k).map fun _ => 0 := by simp
  rw [addUp, hzero, hfold]
  simp only [zero_add]

theorem mem_of_read (h : mask ∈ masksRead (masksToRate k) k) : mask ∈ masksToRate k :=
  mem_masksToRate_iff_read.mpr h

theorem exists_policyFigures (v : ℕ → ℤ) : ∃ figures,
    policyFigures (masksToRate k) v k = some figures ∧ figures.baseline = v 0 ∧
      figures.total = v (fullMask k) - v 0 ∧
      figures.cumulative = (List.range k).map fun i => v (forwardMask (i + 1)) - v (forwardMask i) := by
  have hfull : fullMask k ∈ masksToRate k := mem_of_read (mem_masksRead.mpr (.inl rfl))
  have hzero : 0 ∈ masksToRate k := mem_of_read (mem_masksRead.mpr (.inr (.inl rfl)))
  have hforward : ∀ i < k, forwardMask (i + 1) ∈ masksToRate k ∧ forwardMask i ∈ masksToRate k := by
    intro i hi
    constructor
    all_goals apply mem_of_read
    · exact mem_masksRead.mpr (.inr (.inr (.inr (.inl ⟨i, hi, .inl rfl⟩))))
    · exact mem_masksRead.mpr (.inr (.inr (.inr (.inl ⟨i, hi, .inr rfl⟩))))
  have hcumulative := @differences_of_mem _ v _ _ _ hforward
  obtain ⟨figures, h⟩ := Option.isSome_iff_exists.mp
    (isSome_policyFigures.mpr fun _ => mem_of_read (k := k))
  refine ⟨figures, h, ?_⟩
  simp only [policyFigures, Option.bind_eq_bind, Option.bind_eq_some_iff] at h
  obtain ⟨candidate, hc, baseline, hb, isolated, -, cumulative, hcum, parts, -, reverse, -,
    hfigures⟩ := h
  obtain rfl := Option.some.inj hfigures
  rw [look_of_mem hfull] at hc
  rw [look_of_mem hzero] at hb
  obtain rfl := Option.some.inj hc
  obtain rfl := Option.some.inj hb
  obtain rfl : _ = cumulative := Option.some.inj (hcumulative.symm.trans hcum)
  exact ⟨rfl, rfl, rfl⟩

def bookPremium (book : List (ℕ → ℤ)) (mask : ℕ) : ℤ := (book.map fun v => v mask).sum

theorem sum_differences (book : List (ℕ → ℤ)) (upper lower : ℕ) :
    (book.map fun v => v upper - v lower).sum = bookPremium book upper - bookPremium book lower := by
  induction book with
  | nil => rfl
  | cons v book ih =>
    simp only [bookPremium, List.map_cons, List.sum_cons] at ih ⊢
    rw [ih]
    ring

/-- The listed masks are those that are read for a policy, each once, and as many as are charged
for. All figures of a book are had from them: the cumulative part of a group is what the book's
premium gains where the group joins those before it, and the parts sum to the total change. -/
theorem masksToRate_exact (k : ℕ) :
    (∀ mask, mask ∈ masksToRate k ↔ mask ∈ masksRead (masksToRate k) k) ∧ (masksToRate k).Nodup ∧
    (∀ policies grouped, estimateAttributionRatings k policies grouped =
      if grouped = true ∧ maxShapleyGroups < k then none
      else some ((masksToRate k).length * policies)) ∧
    ∀ book, ∃ figures, bookFigures k book = some figures ∧
      figures.baselineTotal = bookPremium book 0 ∧
      figures.totalChange = bookPremium book (fullMask k) - bookPremium book 0 ∧
      figures.cumulativeSum = (List.range k).map (fun i =>
        bookPremium book (forwardMask (i + 1)) - bookPremium book (forwardMask i)) ∧
      figures.cumulativeSum.sum = bookPremium book (fullMask k) - bookPremium book 0 := by
  refine ⟨fun _ => mem_masksToRate_iff_read, nodup_masksToRate, ?_, ?_⟩
  · intro policies grouped
    rw [estimateAttributionRatings, length_masksToRate]
  · intro book
    obtain ⟨figures, hfigures, hrows⟩ :=
      exists_mapM_some (l := book) fun v _ => exists_policyFigures (k := k) v
    have hmap : ∀ {β : Type} (f : PolicyFigures → β) (g : (ℕ → ℤ) → β),
        List.Forall₂ (fun v r => f r = g v) book figures → figures.map f = book.map g := by
      intro β f g h
      rw [← List.forall₂_eq_eq_eq, List.forall₂_map_left_iff, List.forall₂_map_right_iff]
      exact h.flip
    have hcumulative : addUp k (figures.map PolicyFigures.cumulative) = (List.range k).map fun i =>
        bookPremium book (forwardMask (i + 1)) - bookPremium book (forwardMask i) := by
      rw [hmap _ _ (hrows.imp fun _ _ h => h.2.2), addUp_map]
      simp only [sum_differences]
    refine ⟨_, by rw [bookFigures, hfigures]; rfl, ?_, ?_, hcumulative, ?_⟩
    · exact congrArg List.sum (hmap _ _ (hrows.imp fun _ _ h => h.1))
    · exact (congrArg List.sum (hmap _ _ (hrows.imp fun _ _ h => h.2.1))).trans (sum_differences ..)
    · refine (congrArg List.sum hcumulative).trans ?_
      exact Finset.sum_range_sub (fun i => bookPremium book (forwardMask i)) k

end Reads

end GiPricing
