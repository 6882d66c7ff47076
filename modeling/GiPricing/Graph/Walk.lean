import Mathlib.Algebra.BigOperators.Group.List.Basic
import Mathlib.Algebra.Order.BigOperators.Group.List
import Mathlib.Tactic.Linarith

/-! # Walks of a tree

A breadth-first walk with a queue reaches every node below its start. A count with a stack of levels
finds the size and the height of a tree.
-/

namespace GiPricing.Graph

variable {α : Type}

/-- A finite tree, by the children of each node and a weight that bounds what is below it. -/
structure FiniteTree (α : Type) where
  children : α → List α
  weight : α → ℕ
  weight_lt : ∀ x, ((children x).map weight).sum < weight x

namespace FiniteTree

variable (t : FiniteTree α) {P : α → Prop} {x y : α} {queue : List α} {fuel : ℕ}

def weights (queue : List α) : ℕ := (queue.map t.weight).sum

/-- The walk with a queue: the first node, and its children behind the others. -/
def walkFrom : ℕ → List α → List α
  | 0, _ => []
  | _ + 1, [] => []
  | fuel + 1, x :: queue => x :: walkFrom fuel (queue ++ t.children x)

def walk (x : α) : List α := t.walkFrom (t.weight x) [x]

inductive Below : α → α → Prop
  | refl (x : α) : Below x x
  | child {x c y : α} : c ∈ t.children x → Below c y → Below x y

def Everywhere (P : α → Prop) (x : α) : Prop := ∀ y, t.Below x y → P y

variable {t}

theorem everywhere_iff :
    t.Everywhere P x ↔ P x ∧ ∀ c ∈ t.children x, t.Everywhere P c := by
  constructor
  · intro h
    exact ⟨h x (.refl x), fun c hc y hy => h y (.child hc hy)⟩
  · rintro ⟨hx, hchildren⟩ y hy
    cases hy with
    | refl => exact hx
    | child hc hy => exact hchildren _ hc y hy

theorem everywhere_and {Q : α → Prop} :
    t.Everywhere (fun x => P x ∧ Q x) x ↔ t.Everywhere P x ∧ t.Everywhere Q x :=
  forall₂_and

theorem induct (h : ∀ x, (∀ c ∈ t.children x, P c) → P x) (x : α) : P x := by
  have hweight : ∀ n, ∀ x, t.weight x = n → P x := by
    intro n
    induction n using Nat.strong_induction_on with
    | _ n ih =>
      rintro x rfl
      apply h
      intro c hc
      apply ih (t.weight c) _ c rfl
      exact lt_of_le_of_lt (List.single_le_sum (by simp) _ (List.mem_map_of_mem hc)) (t.weight_lt x)
  exact hweight _ x rfl

theorem Below.trans {z : α} (hxy : t.Below x y) (hyz : t.Below y z) : t.Below x z := by
  induction hxy with
  | refl => exact hyz
  | child hc _ ih => exact .child hc (ih hyz)

theorem induct_below (h : ∀ x, (∀ c ∈ t.children x, t.Everywhere P c) → P x) (x : α) : P x := by
  have heverywhere : t.Everywhere P x := by
    induction x using induct (t := t) with
    | _ x ih => exact everywhere_iff.mpr ⟨h x ih, ih⟩
  exact heverywhere x (.refl x)

theorem mem_walkFrom (hfuel : t.weights queue ≤ fuel) :
    y ∈ t.walkFrom fuel queue ↔ ∃ x ∈ queue, t.Below x y := by
  induction fuel generalizing queue with
  | zero =>
    cases queue with
    | nil => simp [walkFrom]
    | cons x queue =>
      have := t.weight_lt x
      rw [weights, List.map_cons, List.sum_cons] at hfuel
      omega
  | succ fuel ih =>
    cases queue with
    | nil => simp [walkFrom]
    | cons x queue =>
      have hlt := t.weight_lt x
      have hnext : t.weights (queue ++ t.children x) ≤ fuel := by
        rw [weights, List.map_append, List.sum_append]
        rw [weights, List.map_cons, List.sum_cons] at hfuel
        omega
      rw [walkFrom, List.mem_cons, ih hnext]
      constructor
      · rintro (rfl | ⟨c, hc, hbelow⟩)
        · exact ⟨y, List.mem_cons_self, .refl y⟩
        · rcases List.mem_append.mp hc with hc | hc
          · exact ⟨c, List.mem_cons_of_mem _ hc, hbelow⟩
          · exact ⟨x, List.mem_cons_self, .child hc hbelow⟩
      · rintro ⟨c, hc, hbelow⟩
        rcases List.mem_cons.mp hc with rfl | hc
        · cases hbelow with
          | refl => exact Or.inl rfl
          | child hd hbelow => exact Or.inr ⟨_, List.mem_append_right _ hd, hbelow⟩
        · exact Or.inr ⟨c, List.mem_append_left _ hc, hbelow⟩

theorem forall_mem_walk : (∀ y ∈ t.walk x, P y) ↔ t.Everywhere P x := by
  have hmem : ∀ y, y ∈ t.walk x ↔ t.Below x y := by
    intro y
    rw [walk, mem_walkFrom (by simp [weights])]
    simp
  simp only [Everywhere, hmem]

end FiniteTree

/-- A tree whose weights count its nodes, with its heights. -/
structure SizedTree (α : Type) extends FiniteTree α where
  weight_eq : ∀ x, weight x = ((children x).map weight).sum + 1
  height : α → ℕ
  height_pos : ∀ x, 0 < height x
  height_le : ∀ x bound, height x ≤ bound + 1 ↔ ∀ c ∈ children x, height c ≤ bound

namespace SizedTree

variable (t : SizedTree α) {stack : List (α × ℕ)} {fuel : ℕ}

/-- The count with a stack of nodes and their levels: the number of nodes and the deepest level. -/
def measureFrom : ℕ → List (α × ℕ) → ℕ × ℕ → ℕ × ℕ
  | 0, _, size => size
  | _ + 1, [], size => size
  | fuel + 1, (x, level) :: stack, (nodes, depth) =>
    measureFrom fuel (((t.children x).map (·, level + 1)).reverse ++ stack)
      (nodes + 1, max depth level)

def measure (x : α) : ℕ × ℕ := t.measureFrom (t.weight x) [(x, 1)] (0, 0)

variable {t}

theorem measureFrom_nodes (hfuel : (stack.map fun x => t.weight x.1).sum ≤ fuel)
    (nodes depth : ℕ) : (t.measureFrom fuel stack (nodes, depth)).1 =
      nodes + (stack.map fun x => t.weight x.1).sum := by
  induction fuel generalizing stack nodes depth with
  | zero =>
    rw [measureFrom]
    omega
  | succ fuel ih =>
    cases stack with
    | nil => simp [measureFrom]
    | cons x stack =>
      have hx := t.weight_eq x.1
      have hpair : (fun y : α × ℕ => t.weight y.1) ∘ (·, x.2 + 1) = t.weight := rfl
      have hpushed : (((((t.children x.1).map (·, x.2 + 1)).reverse ++ stack).map
          fun x => t.weight x.1)).sum + 1 = ((x :: stack).map fun x => t.weight x.1).sum := by
        rw [List.map_append, List.sum_append, List.map_reverse, List.sum_reverse, List.map_map,
          List.map_cons, List.sum_cons, hx, hpair]
        omega
      rw [measureFrom, ih (by omega)]
      omega

theorem measureFrom_depth (hfuel : (stack.map fun x => t.weight x.1).sum ≤ fuel)
    (nodes depth bound : ℕ) : (t.measureFrom fuel stack (nodes, depth)).2 ≤ bound ↔
      depth ≤ bound ∧ ∀ x ∈ stack, x.2 + t.height x.1 ≤ bound + 1 := by
  induction fuel generalizing stack nodes depth with
  | zero =>
    cases stack with
    | nil => simp [measureFrom]
    | cons x stack =>
      have := t.weight_eq x.1
      rw [List.map_cons, List.sum_cons] at hfuel
      omega
  | succ fuel ih =>
    cases stack with
    | nil => simp [measureFrom]
    | cons x stack =>
      have hx := t.weight_eq x.1
      have hpair : (fun y : α × ℕ => t.weight y.1) ∘ (·, x.2 + 1) = t.weight := rfl
      have hpushed : (((((t.children x.1).map (·, x.2 + 1)).reverse ++ stack).map
          fun x => t.weight x.1)).sum ≤ fuel := by
        rw [List.map_append, List.sum_append, List.map_reverse, List.sum_reverse, List.map_map,
          hpair]
        rw [List.map_cons, List.sum_cons] at hfuel
        omega
      have hheight : x.2 + t.height x.1 ≤ bound + 1 ↔
          x.2 ≤ bound ∧ ∀ c ∈ t.children x.1, x.2 + 1 + t.height c ≤ bound + 1 := by
        have hpos := t.height_pos x.1
        constructor
        · intro h
          refine ⟨by omega, fun c hc => ?_⟩
          have := (t.height_le x.1 (bound - x.2)).mp (by omega) c hc
          omega
        · rintro ⟨hlevel, hchildren⟩
          have := (t.height_le x.1 (bound - x.2)).mpr fun c hc => by
            have := hchildren c hc
            omega
          omega
      rw [measureFrom, ih hpushed]
      simp only [List.mem_append, List.mem_reverse, List.mem_map, List.forall_mem_cons, hheight,
        max_le_iff]
      constructor
      · rintro ⟨⟨hdepth, hlevel⟩, hall⟩
        exact ⟨hdepth, ⟨hlevel, fun c hc => hall _ (Or.inl ⟨c, hc, rfl⟩)⟩,
          fun z hz => hall z (Or.inr hz)⟩
      · rintro ⟨hdepth, ⟨hlevel, hchildren⟩, hstack⟩
        refine ⟨⟨hdepth, hlevel⟩, ?_⟩
        rintro z (⟨c, hc, rfl⟩ | hz)
        · exact hchildren c hc
        · exact hstack z hz

theorem measure_nodes (x : α) : (t.measure x).1 = t.weight x := by
  rw [measure, measureFrom_nodes (by simp)]
  simp

theorem measure_depth (x : α) : (t.measure x).2 = t.height x := by
  apply eq_of_forall_ge_iff
  intro bound
  rw [measure, measureFrom_depth (by simp)]
  simp only [List.forall_mem_singleton, Nat.zero_le, true_and]
  omega

end SizedTree

end GiPricing.Graph
