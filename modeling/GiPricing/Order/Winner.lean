import Mathlib.Tactic

/-! # The winner of a list

The one whose key no other's is better than or the same as. A key need not compare with all keys, or be
the same as itself; where the keys are those of a linear order the winner does not depend on the order
of the list.
-/

namespace GiPricing.Order

variable {ι κ α : Type*} [LinearOrder α] {better same : κ → κ → Bool} {value : κ → α}

/-- The key that a scan of a list keeps: the first, until a better one comes. -/
def bestOf (better : κ → κ → Bool) : List κ → Option κ
  | [] => none
  | k :: l => some (l.foldl (fun best k => if better k best then k else best) k)

def only {γ : Type*} : List γ → Option γ
  | [a] => some a
  | _ => none

theorem only_perm {γ : Type*} {l l' : List γ} (h : l.Perm l') : only l = only l' := by
  match l with
  | [] =>
    rw [List.nil_perm.mp h]
  | [a] =>
    rw [List.singleton_perm.mp h]
  | a :: b :: rest =>
    match l', h.length_eq with
    | a' :: b' :: rest', _ => rfl

def winner (better same : κ → κ → Bool) (scored : List (ι × κ)) : Option ι :=
  (bestOf better (scored.map Prod.snd)).bind fun best =>
    (only (scored.filter fun p => same p.2 best)).map Prod.fst

/-- A key is better than another just where its value is greater. -/
def Ordered (better : κ → κ → Bool) (value : κ → α) (keys : List κ) : Prop :=
  ∀ a ∈ keys, ∀ b ∈ keys, better a b = true ↔ value b < value a

theorem foldl_best : ∀ {l : List κ} {k : κ}, Ordered better value (k :: l) →
    l.foldl (fun best k => if better k best then k else best) k ∈ k :: l ∧
      ∀ a ∈ k :: l, value a ≤ value (l.foldl (fun best k => if better k best then k else best) k)
  | [], k, _ => by simp
  | a :: l, k, h => by
    rw [List.foldl_cons]
    by_cases hbetter : better a k = true
    · have hlt := (h a (by simp) k (by simp)).mp hbetter
      obtain ⟨hmem, hbest⟩ := foldl_best (k := a) (l := l) fun b hb c hc =>
        h b (List.mem_cons_of_mem _ hb) c (List.mem_cons_of_mem _ hc)
      rw [if_pos hbetter]
      refine ⟨List.mem_cons_of_mem _ hmem, fun b hb => ?_⟩
      rcases List.mem_cons.mp hb with rfl | hb
      · exact hlt.le.trans (hbest a (by simp))
      · exact hbest b hb
    · have hle : value a ≤ value k := by
        rw [h a (by simp) k (by simp)] at hbetter
        exact not_lt.mp hbetter
      have hsub : ∀ b ∈ k :: l, b ∈ k :: a :: l := by
        intro b hb
        rcases List.mem_cons.mp hb with rfl | hb
        · simp
        · simp [hb]
      obtain ⟨hmem, hbest⟩ := foldl_best (k := k) (l := l) fun b hb c hc =>
        h b (hsub b hb) c (hsub c hc)
      rw [if_neg hbetter]
      refine ⟨hsub _ hmem, fun b hb => ?_⟩
      rcases List.mem_cons.mp hb with rfl | hb
      · exact hbest b (by simp)
      rcases List.mem_cons.mp hb with rfl | hb
      · exact hle.trans (hbest k (by simp))
      · exact hbest b (List.mem_cons_of_mem _ hb)

theorem bestOf_spec {keys : List κ} {best : κ} (h : Ordered better value keys)
    (hbest : bestOf better keys = some best) :
    best ∈ keys ∧ ∀ a ∈ keys, value a ≤ value best := by
  cases keys with
  | nil => cases hbest
  | cons k l =>
    obtain rfl := Option.some.inj hbest
    exact foldl_best h

theorem bestOf_perm {keys keys' : List κ} (hperm : keys.Perm keys') (h : Ordered better value keys)
    (hvalue : ∀ a ∈ keys, ∀ b ∈ keys, value a = value b → a = b) :
    bestOf better keys = bestOf better keys' := by
  have h' : Ordered better value keys' := fun a ha b hb =>
    h a (hperm.mem_iff.mpr ha) b (hperm.mem_iff.mpr hb)
  cases hbest : bestOf better keys with
  | none =>
    cases keys with
    | nil => rw [List.nil_perm.mp hperm]; rfl
    | cons k l => cases hbest
  | some best =>
    obtain ⟨hmem, hgreatest⟩ := bestOf_spec h hbest
    cases hbest' : bestOf better keys' with
    | none =>
      cases keys' with
      | nil => rw [List.perm_nil.mp hperm] at hmem; cases hmem
      | cons k l => cases hbest'
    | some best' =>
      obtain ⟨hmem', hgreatest'⟩ := bestOf_spec h' hbest'
      rw [hvalue best hmem best' (hperm.mem_iff.mpr hmem') (le_antisymm
        (hgreatest' best (hperm.mem_iff.mp hmem)) (hgreatest best' (hperm.mem_iff.mpr hmem')))]

theorem winner_perm {scored scored' : List (ι × κ)} (hperm : scored.Perm scored')
    (h : Ordered better value (scored.map Prod.snd))
    (hvalue : ∀ a ∈ scored.map Prod.snd, ∀ b ∈ scored.map Prod.snd, value a = value b → a = b) :
    winner better same scored = winner better same scored' := by
  unfold winner
  rw [bestOf_perm (hperm.map Prod.snd) h hvalue]
  congr 1
  funext best
  rw [only_perm (hperm.filter _)]

end GiPricing.Order
