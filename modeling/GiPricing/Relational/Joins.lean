import Mathlib.Algebra.BigOperators.Group.List.Basic
import Mathlib.Data.List.Dedup
import Mathlib.Tactic

/-! # Nulls, left joins and groups

A cell that may be null, the truth value of an expression over such cells, and the filter that keeps
a row where its expression is true. A left join on a key that may be null: each row of the left with
each row of the right of its key, or with a null row where it has none. A null key is no key. Groups
are counted by a key of any kind.
-/

namespace GiPricing.Relational

/-! ## Null values -/

section Nulls

/-- A truth value: null where the nulls of an expression leave it open. -/
abbrev Truth := Option Bool

variable {α β : Type*} {p q : Truth} {x y : Option α}

namespace Truth

def and : Truth → Truth → Truth
  | some false, _ | _, some false => some false
  | some true, some true => some true
  | _, _ => none

def or : Truth → Truth → Truth
  | some true, _ | _, some true => some true
  | some false, some false => some false
  | _, _ => none

def isNull (x : Option α) : Truth := some x.isNone

def isNotNull (x : Option α) : Truth := some x.isSome

def compare (r : α → β → Prop) [∀ a b, Decidable (r a b)] (x : Option α) (y : Option β) : Truth :=
  x.bind fun a => y.map fun b => decide (r a b)

@[simp] theorem and_eq_true : and p q = some true ↔ p = some true ∧ q = some true := by
  rcases p with _ | _ | _ <;> rcases q with _ | _ | _ <;> simp [and]

@[simp] theorem or_eq_true : or p q = some true ↔ p = some true ∨ q = some true := by
  rcases p with _ | _ | _ <;> rcases q with _ | _ | _ <;> simp [or]

@[simp] theorem isNull_eq_true : isNull x = some true ↔ x = none := by
  cases x <;> simp [isNull]

@[simp] theorem isNotNull_eq_true : isNotNull x = some true ↔ x.isSome = true := by
  cases x <;> simp [isNotNull]

variable {r : α → β → Prop} [∀ a b, Decidable (r a b)] {z : Option β}

@[simp] theorem compare_eq_true :
    compare r x z = some true ↔ ∃ a b, x = some a ∧ z = some b ∧ r a b := by
  cases x <;> cases z <;> simp [compare]

end Truth

def keep (p : α → Truth) (l : List α) : List α := l.filter fun a => p a = some true

theorem mem_keep {p : α → Truth} {l : List α} {a : α} :
    a ∈ keep p l ↔ a ∈ l ∧ p a = some true := by
  rw [keep, List.mem_filter, decide_eq_true_iff]

end Nulls

/-! ## Joins -/

variable {α β κ : Type*} [DecidableEq κ]

/-! ## Sums over the rows of a table -/

section Sums

variable {l : List α} {f g : α → ℕ}

theorem sum_ite_eq_countP (p : α → Prop) [DecidablePred p] :
    (l.map fun a => if p a then 1 else 0).sum = l.countP p := by
  induction l with
  | nil => rfl
  | cons a l ih =>
    rw [List.map_cons, List.sum_cons, ih, List.countP_cons, add_comm]
    simp

theorem sum_eq_sum_iff_of_le (h : ∀ a ∈ l, f a ≤ g a) :
    (l.map f).sum = (l.map g).sum ↔ ∀ a ∈ l, f a = g a := by
  induction l with
  | nil => simp
  | cons a l ih =>
    obtain ⟨ha, hl⟩ := List.forall_mem_cons.mp h
    have hle : (l.map f).sum ≤ (l.map g).sum := List.sum_le_sum hl
    rw [List.forall_mem_cons, ← ih hl, List.map_cons, List.map_cons, List.sum_cons, List.sum_cons]
    constructor
    · intro heq
      constructor <;> omega
    · rintro ⟨heq, hrest⟩
      rw [heq, hrest]

theorem sum_map_eq_single {ι : Type*} {key : α → ι} (hnodup : (l.map key).Nodup) {a : α} (ha : a ∈ l)
    (hf : ∀ b ∈ l, key b ≠ key a → f b = 0) : (l.map f).sum = f a := by
  induction l with
  | nil => cases ha
  | cons b l ih =>
    rw [List.map_cons, List.nodup_cons] at hnodup
    rw [List.map_cons, List.sum_cons]
    rcases List.mem_cons.mp ha with rfl | hl
    · have hzero : ∀ n ∈ l.map f, n = 0 := by
        intro n hn
        obtain ⟨c, hc, rfl⟩ := List.mem_map.mp hn
        exact hf c (List.mem_cons_of_mem _ hc) fun he => hnodup.1 (he ▸ List.mem_map_of_mem hc)
      rw [List.sum_eq_zero hzero, add_zero]
    · have hne : key b ≠ key a := fun he => hnodup.1 (he ▸ List.mem_map_of_mem hl)
      rw [hf b List.mem_cons_self hne, zero_add]
      exact ih hnodup.2 hl fun c hc => hf c (List.mem_cons_of_mem _ hc)

end Sums

section Join

variable (left : α → Option κ) (right : β → Option κ)

def partners (r : List β) (a : α) : List β :=
  r.filter fun b => left a = right b ∧ (left a).isSome = true

def leftJoin (l : List α) (r : List β) : List (α × Option β) :=
  l.flatMap fun a => match partners left right r a with
    | [] => [(a, none)]
    | b :: bs => (b :: bs).map fun b => (a, some b)

variable {left right} {l : List α} {r : List β} {p : α × Option β → Bool} {a : α}

theorem countP_leftJoin : (leftJoin left right l r).countP p =
    (l.map fun a => if partners left right r a = [] then [(a, none)].countP p
      else (partners left right r a).countP fun b => p (a, some b)).sum := by
  rw [leftJoin, List.countP_flatMap]
  congr 1
  apply List.map_congr_left
  intro a _
  cases h : partners left right r a with
  | nil => simp only [Function.comp_apply, h, if_true]
  | cons b bs =>
    simp only [Function.comp_apply, h, reduceCtorEq, if_false]
    rw [List.countP_map]
    rfl

theorem mem_leftJoin {o : Option β} : (a, o) ∈ leftJoin left right l r ↔ a ∈ l ∧
    ((o = none ∧ partners left right r a = []) ∨ ∃ b ∈ partners left right r a, o = some b) := by
  rw [leftJoin, List.mem_flatMap]
  constructor
  · rintro ⟨a', ha', h⟩
    cases hp : partners left right r a' with
    | nil =>
      simp only [hp, List.mem_singleton, Prod.mk.injEq] at h
      obtain ⟨rfl, rfl⟩ := h
      exact ⟨ha', Or.inl ⟨rfl, hp⟩⟩
    | cons b bs =>
      simp only [hp, List.mem_map, Prod.mk.injEq] at h
      obtain ⟨b', hb', rfl, rfl⟩ := h
      exact ⟨ha', Or.inr ⟨b', hp ▸ hb', rfl⟩⟩
  · rintro ⟨ha, h⟩
    refine ⟨a, ha, ?_⟩
    rcases h with ⟨rfl, hp⟩ | ⟨b, hb, rfl⟩
    · simp [hp]
    · cases hp : partners left right r a with
      | nil => simp [hp] at hb
      | cons b' bs => simpa [hp] using hb

theorem partners_eq_nil : partners left right r a = [] ↔
    ∀ b ∈ r, left a = right b → left a = none := by
  simp only [partners, List.filter_eq_nil_iff, decide_eq_true_eq, not_and, Bool.not_eq_true,
    Option.isSome_eq_false_iff, Option.isNone_iff_eq_none]

end Join

section Groups

variable (key : α → κ)

/-- `group_by(key).len()` -/
def groupLengths (l : List α) : List (κ × ℕ) :=
  (l.map key).dedup.map fun k => (k, l.countP fun a => key a = k)

variable {key} {l : List α} {n : ℕ}

theorem mem_groupLengths {k : κ} :
    (k, n) ∈ groupLengths key l ↔ k ∈ l.map key ∧ l.countP (fun a => key a = k) = n := by
  simp only [groupLengths, List.mem_map, List.mem_dedup, Prod.mk.injEq]
  constructor
  · rintro ⟨k, hk, rfl, rfl⟩
    exact ⟨hk, rfl⟩
  · rintro ⟨hk, rfl⟩
    exact ⟨k, hk, rfl, rfl⟩

theorem groupLengths_keys : ((groupLengths key l).map Prod.fst).Nodup := by
  rw [groupLengths, List.map_map]
  have hfst : (Prod.fst ∘ fun k => (k, l.countP fun a => key a = k)) = id := rfl
  rw [hfst, List.map_id]
  exact List.nodup_dedup _

end Groups

end GiPricing.Relational
