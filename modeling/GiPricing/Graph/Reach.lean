import Mathlib.Data.List.Nodup
import Mathlib.Logic.Relation
import Mathlib.Tactic

/-! # Worklist reachability

A worklist visits each node once and queues its successors. With fuel for every edge it
collects exactly the nodes reachable from the start.
-/

namespace GiPricing.Reach

variable {α : Type*} [DecidableEq α]

/-- Visit the queued nodes, last queued first, collecting the nodes seen. -/
def visit (next : α → List α) : ℕ → List α → List α → List α
  | 0, _, seen => seen
  | n + 1, queue, seen => match queue.reverse with
    | [] => seen
    | a :: rest =>
      if a ∈ seen then visit next n rest.reverse seen
      else visit next n (rest.reverse ++ next a) (a :: seen)

def fuel (next : α → List α) (univ start : List α) : ℕ :=
  start.length + (univ.map fun a => (next a).length).sum

/-- The nodes reachable from `start`, for successors that stay in `univ`. -/
def reach (next : α → List α) (univ start : List α) : List α :=
  visit next (fuel next univ start) start []

/-- Reachability along the successors, from any node of a list. -/
def Reaches (next : α → List α) (start : List α) (a : α) : Prop :=
  ∃ s ∈ start, Relation.ReflTransGen (fun x y => y ∈ next x) s a

variable {next : α → List α} {univ : List α}

theorem visit_sound {n : ℕ} {queue seen : List α} {a : α} (h : a ∈ visit next n queue seen) :
    a ∈ seen ∨ Reaches next queue a := by
  induction n generalizing queue seen with
  | zero => exact Or.inl h
  | succ n ih =>
    rw [visit] at h
    cases hq : queue.reverse with
    | nil => simp only [hq] at h; exact Or.inl h
    | cons b rest =>
      simp only [hq] at h
      have hmem : ∀ x ∈ rest.reverse, x ∈ queue := fun x hx => by
        have : x ∈ queue.reverse := hq ▸ List.mem_cons_of_mem _ (List.mem_reverse.mp hx)
        exact List.mem_reverse.mp this
      have hb : b ∈ queue := List.mem_reverse.mp (hq ▸ List.mem_cons_self)
      split at h
      · rcases ih h with h | ⟨s, hs, hr⟩
        · exact Or.inl h
        · exact Or.inr ⟨s, hmem s hs, hr⟩
      · rcases ih h with h | ⟨s, hs, hr⟩
        · rcases List.mem_cons.mp h with rfl | h
          · exact Or.inr ⟨a, hb, .refl⟩
          · exact Or.inl h
        · rcases List.mem_append.mp hs with hs | hs
          · exact Or.inr ⟨s, hmem s hs, hr⟩
          · exact Or.inr ⟨b, hb, .head hs hr⟩

/-- The visits that are still owed: the queue, and the edges of the nodes not seen yet. -/
def owed (next : α → List α) (univ queue seen : List α) : ℕ :=
  queue.length + ((univ.filter (· ∉ seen)).map fun a => (next a).length).sum

theorem sum_filter_cons (hu : univ.Nodup) {seen : List α} {a : α} (ha : a ∈ univ)
    (hs : a ∉ seen) (f : α → ℕ) :
    ((univ.filter (· ∉ seen)).map f).sum = f a + ((univ.filter (· ∉ a :: seen)).map f).sum := by
  have hf : univ.filter (· ∉ a :: seen) = (univ.filter (· ∉ seen)).erase a := by
    rw [(hu.filter _).erase_eq_filter, List.filter_filter]
    refine List.filter_congr fun b _ => ?_
    simp only [List.mem_cons, not_or, Bool.decide_and, decide_not, bne]
    rfl
  have hm : a ∈ univ.filter (· ∉ seen) := List.mem_filter.mpr ⟨ha, by simpa using hs⟩
  rw [hf, ((List.perm_cons_erase hm).map f).sum_eq, List.map_cons, List.sum_cons]

/-- The seen nodes keep their successors seen or queued, so an empty queue leaves a closed set. -/
theorem visit_closed (hu : univ.Nodup) (hn : ∀ a ∈ univ, ∀ b ∈ next a, b ∈ univ) {n : ℕ}
    {queue seen : List α} (hq : ∀ a ∈ queue, a ∈ univ) (hf : owed next univ queue seen ≤ n)
    (hc : ∀ a ∈ seen, ∀ b ∈ next a, b ∈ seen ∨ b ∈ queue) :
    (∀ a ∈ visit next n queue seen, ∀ b ∈ next a, b ∈ visit next n queue seen) ∧
      (∀ a ∈ queue, a ∈ visit next n queue seen) ∧ ∀ a ∈ seen, a ∈ visit next n queue seen := by
  induction n generalizing queue seen with
  | zero =>
    have : queue = [] := List.eq_nil_of_length_eq_zero (by unfold owed at hf; omega)
    subst this
    exact ⟨fun a ha b hb => by simpa [visit] using hc a ha b hb, by simp, by simp [visit]⟩
  | succ n ih =>
    rw [visit]
    cases hr : queue.reverse with
    | nil =>
      obtain rfl := List.reverse_eq_nil_iff.mp hr
      exact ⟨fun a ha b hb => by simpa using hc a ha b hb, by simp, fun a ha => ha⟩
    | cons a rest =>
      have hqe : queue = rest.reverse ++ [a] := by
        rw [← List.reverse_reverse queue, hr, List.reverse_cons]
      simp only
      have hau : a ∈ univ := hq a (by simp [hqe])
      have hru : ∀ b ∈ rest.reverse, b ∈ univ := fun b hb => hq b (by simp [hqe, hb])
      by_cases hs : a ∈ seen
      · rw [if_pos hs]
        obtain ⟨h₁, h₂, h₃⟩ := @ih rest.reverse seen hru
          (by simp only [owed, hqe, List.length_append, List.length_singleton] at hf ⊢; omega)
          (fun x hx b hb => by
            rcases hc x hx b hb with h | h
            · exact Or.inl h
            · rw [hqe] at h
              rcases List.mem_append.mp h with h | h
              · exact Or.inr h
              · exact Or.inl (List.mem_singleton.mp h ▸ hs))
        refine ⟨h₁, fun b hb => ?_, h₃⟩
        rw [hqe] at hb
        rcases List.mem_append.mp hb with hb | hb
        · exact h₂ b hb
        · exact List.mem_singleton.mp hb ▸ h₃ a hs
      · rw [if_neg hs]
        have hsum := sum_filter_cons hu hau hs fun x => (next x).length
        obtain ⟨h₁, h₂, h₃⟩ := @ih (rest.reverse ++ next a) (a :: seen)
          (fun b hb => (List.mem_append.mp hb).elim (hru b) (hn a hau b))
          (by simp only [owed, hqe, List.length_append, List.length_singleton] at hf ⊢; omega)
          (fun x hx b hb => by
            rcases List.mem_cons.mp hx with rfl | hx
            · exact Or.inr (List.mem_append_right _ hb)
            · rcases hc x hx b hb with h | h
              · exact Or.inl (List.mem_cons_of_mem _ h)
              · rw [hqe] at h
                rcases List.mem_append.mp h with h | h
                · exact Or.inr (List.mem_append_left _ h)
                · exact Or.inl (List.mem_singleton.mp h ▸ List.mem_cons_self))
        refine ⟨h₁, fun b hb => ?_, fun b hb => h₃ b (List.mem_cons_of_mem _ hb)⟩
        rw [hqe] at hb
        rcases List.mem_append.mp hb with hb | hb
        · exact h₂ b (List.mem_append_left _ hb)
        · exact List.mem_singleton.mp hb ▸ h₃ a List.mem_cons_self

theorem mem_reach (hu : univ.Nodup) (hn : ∀ a ∈ univ, ∀ b ∈ next a, b ∈ univ) {start : List α}
    (hs : ∀ a ∈ start, a ∈ univ) {a : α} : a ∈ reach next univ start ↔ Reaches next start a := by
  constructor
  · intro h
    exact (visit_sound h).resolve_left (by simp)
  · rintro ⟨s, hss, hr⟩
    obtain ⟨h₁, h₂, _⟩ := @visit_closed _ _ _ _ hu hn (fuel next univ start) _ [] hs
      (by simp [owed, fuel]) (by simp)
    induction hr with
    | refl => exact h₂ s hss
    | tail _ hb ih => exact h₁ _ ih _ hb

end GiPricing.Reach
