import Mathlib.Algebra.BigOperators.Group.List.Basic
import Mathlib.Algebra.Order.BigOperators.Group.List
import Mathlib.Data.List.Sort
import Mathlib.Tactic

/-! # Largest remainders

Numerators over one scale are rounded to whole units whose sum is the rounded sum: each gets
its floor, and the units left over go to the largest remainders.
-/

namespace GiPricing.Game

variable (scale : ℤ) (numerators : List ℤ)

def remainderAt (i : ℕ) : ℤ := numerators[i]?.getD 0 % scale

/-- The larger remainder first, ties in index order. -/
def Ranks (i j : ℕ) : Prop :=
  remainderAt scale numerators j < remainderAt scale numerators i ∨
    remainderAt scale numerators i = remainderAt scale numerators j ∧ i ≤ j

instance : DecidableRel (Ranks scale numerators) := fun _ _ => inferInstanceAs (Decidable (_ ∨ _))

def ranked : List ℕ := (List.range numerators.length).insertionSort (Ranks scale numerators)

def floors : List ℤ := numerators.map (· / scale)

def leftover : ℤ := numerators.sum / scale - (floors scale numerators).sum

def apportion : List ℤ :=
  ((ranked scale numerators).take (leftover scale numerators).toNat).foldl
    (fun parts i => parts.modify i (· + 1)) (floors scale numerators)

variable {scale numerators}

/-! ## Giving out units -/

theorem foldl_modify_getElem? (chosen : List ℕ) (hn : chosen.Nodup) (l : List ℤ) (i : ℕ) :
    (chosen.foldl (fun parts i => parts.modify i (· + 1)) l)[i]? =
      l[i]?.map (· + if i ∈ chosen then 1 else 0) := by
  induction chosen generalizing l with
  | nil => simp
  | cons a chosen ih =>
    obtain ⟨ha, hn⟩ := List.nodup_cons.mp hn
    rw [List.foldl_cons, ih hn, List.getElem?_modify]
    by_cases h : a = i
    · subst h
      cases hl : l[a]? <;> simp [ha]
    · have h' : i ≠ a := fun he => h he.symm
      simp [h, h']

theorem foldl_modify_sum (chosen : List ℕ) (l : List ℤ) (hl : ∀ i ∈ chosen, i < l.length) :
    (chosen.foldl (fun parts i => parts.modify i (· + 1)) l).sum = l.sum + chosen.length := by
  have hmodify : ∀ (l : List ℤ) (i : ℕ), i < l.length → (l.modify i (· + 1)).sum = l.sum + 1 := by
    intro l
    induction l with
    | nil => intro i hi; simp at hi
    | cons x l ih =>
      intro i hi
      cases i with
      | zero => simp only [List.modify_zero_cons, List.sum_cons]; omega
      | succ i =>
        have := ih i (by simpa using hi)
        simp only [List.modify_succ_cons, List.sum_cons, this]
        omega
  induction chosen generalizing l with
  | nil => simp
  | cons a chosen ih =>
    obtain ⟨ha, hl⟩ := List.forall_mem_cons.mp hl
    rw [List.foldl_cons, ih _ (by simpa using hl), hmodify l a ha]
    push_cast [List.length_cons]
    omega

/-! ## The largest remainders -/

theorem ranked_perm : (ranked scale numerators).Perm (List.range numerators.length) :=
  List.perm_insertionSort _ _

theorem ranked_pairwise :
    (ranked scale numerators).Pairwise fun i j =>
      remainderAt scale numerators j ≤ remainderAt scale numerators i := by
  have : Std.Total (Ranks scale numerators) := ⟨fun i j => by unfold Ranks; omega⟩
  have : IsTrans ℕ (Ranks scale numerators) := ⟨fun i j k => by unfold Ranks; omega⟩
  refine (List.pairwise_insertionSort (Ranks scale numerators) _).imp fun {i j} h => ?_
  rcases h with h | h <;> omega

theorem sum_remainders :
    ((ranked scale numerators).map (remainderAt scale numerators)).sum =
      (numerators.map (· % scale)).sum := by
  rw [(ranked_perm.map _).sum_eq]
  congr 1
  apply List.ext_getElem
  · simp
  · intro i h h'
    simp only [List.length_map] at h'
    simp [remainderAt, h']

theorem sum_eq_floors_add :
    numerators.sum = scale * (floors scale numerators).sum + (numerators.map (· % scale)).sum := by
  induction numerators with
  | nil => simp [floors]
  | cons p l ih =>
    have hp := Int.mul_ediv_add_emod p scale
    simp only [floors, List.map_cons, List.sum_cons] at ih ⊢
    rw [ih, mul_add]
    omega

theorem chosen_nodup :
    ((ranked scale numerators).take (leftover scale numerators).toNat).Nodup :=
  (ranked_perm.nodup_iff.mpr List.nodup_range).sublist (List.take_sublist _ _)

variable (hs : 0 < scale)

include hs

theorem remainderAt_bounds (i : ℕ) :
    0 ≤ remainderAt scale numerators i ∧ remainderAt scale numerators i < scale :=
  ⟨Int.emod_nonneg _ hs.ne', Int.emod_lt_of_pos _ hs⟩

theorem leftover_eq :
    leftover scale numerators =
      ((ranked scale numerators).map (remainderAt scale numerators)).sum / scale := by
  rw [sum_remainders, leftover]
  conv_lhs => rw [@sum_eq_floors_add scale numerators]
  rw [Int.add_comm (scale * _), Int.add_mul_ediv_left _ _ hs.ne']
  omega

theorem sum_le_length_mul (l : List ℕ) :
    (l.map (remainderAt scale numerators)).sum ≤ l.length * scale := by
  have h := List.sum_le_card_nsmul (l.map (remainderAt scale numerators)) scale fun x hx => by
    obtain ⟨i, -, rfl⟩ := List.mem_map.mp hx
    exact (remainderAt_bounds hs i).2.le
  simpa using h

theorem leftover_nonneg : 0 ≤ leftover scale numerators := by
  rw [leftover_eq hs]
  refine Int.ediv_nonneg (List.sum_nonneg fun x hx => ?_) hs.le
  obtain ⟨i, -, rfl⟩ := List.mem_map.mp hx
  exact (remainderAt_bounds hs i).1

theorem leftover_mul_le :
    leftover scale numerators * scale ≤
      ((ranked scale numerators).map (remainderAt scale numerators)).sum := by
  rw [leftover_eq hs]
  exact Int.ediv_mul_le _ hs.ne'

theorem leftover_le_length : leftover scale numerators ≤ numerators.length := by
  have h := (leftover_mul_le hs).trans (sum_le_length_mul hs (ranked scale numerators))
  rw [ranked_perm.length_eq, List.length_range] at h
  exact le_of_mul_le_mul_right h hs

theorem remainder_pos_of_chosen {i : ℕ}
    (hi : i ∈ (ranked scale numerators).take (leftover scale numerators).toNat) :
    0 < remainderAt scale numerators i := by
  obtain ⟨u, w, he⟩ := List.append_of_mem hi
  by_contra hpos
  have hzero : remainderAt scale numerators i = 0 :=
    le_antisymm (not_lt.mp hpos) (remainderAt_bounds hs i).1
  have hlen : u.length < (leftover scale numerators).toNat := by
    have := congrArg List.length he
    simp only [List.length_take, List.length_append, List.length_cons] at this
    omega
  obtain ⟨w', hw'⟩ : ∃ w', ranked scale numerators = u ++ i :: w' :=
    ⟨w ++ (ranked scale numerators).drop (leftover scale numerators).toNat, by
      conv_lhs => rw [← List.take_append_drop (leftover scale numerators).toNat
        (ranked scale numerators), he]
      simp⟩
  have hpair := @ranked_pairwise scale numerators
  rw [hw'] at hpair
  have htail : (w'.map (remainderAt scale numerators)).sum = 0 := by
    refine List.sum_eq_zero fun x hx => ?_
    obtain ⟨j, hj, rfl⟩ := List.mem_map.mp hx
    have hle := (List.pairwise_cons.mp (List.pairwise_append.mp hpair).2.1).1 j hj
    exact le_antisymm (hzero ▸ hle) (remainderAt_bounds hs j).1
  have hsum := @leftover_mul_le scale numerators hs
  rw [hw', List.map_append, List.map_cons, List.sum_append, List.sum_cons, htail, hzero] at hsum
  have hu := @sum_le_length_mul scale numerators hs u
  have hlt : (u.length : ℤ) < leftover scale numerators := by omega
  nlinarith

/-! ## The parts -/

theorem sum_apportion : (apportion scale numerators).sum = numerators.sum / scale := by
  have hlen : ((ranked scale numerators).take (leftover scale numerators).toNat).length =
      (leftover scale numerators).toNat := by
    rw [List.length_take, ranked_perm.length_eq, List.length_range]
    have := @leftover_le_length scale numerators hs
    omega
  rw [apportion, foldl_modify_sum _ _ fun i hi => ?_, hlen]
  · have := @leftover_nonneg scale numerators hs
    have hdef : leftover scale numerators =
      numerators.sum / scale - (floors scale numerators).sum := rfl
    omega
  · have := ranked_perm.mem_iff.mp (List.mem_of_mem_take hi)
    simpa [floors] using this

theorem apportion_getElem? {i : ℕ} {p : ℤ} (hp : numerators[i]? = some p) :
    ∃ q, (apportion scale numerators)[i]? = some q ∧
      (q = p / scale ∨ q = p / scale + 1 ∧ 0 < p % scale) := by
  rw [apportion, foldl_modify_getElem? _ chosen_nodup]
  refine ⟨_, by rw [floors, List.getElem?_map, hp]; rfl, ?_⟩
  split_ifs with hi
  · have hr := remainder_pos_of_chosen hs hi
    rw [remainderAt, hp, Option.getD_some] at hr
    exact Or.inr ⟨rfl, hr⟩
  · exact Or.inl (add_zero _)

end GiPricing.Game
