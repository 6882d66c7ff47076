import Mathlib.Data.List.Forall2
import Mathlib.Tactic.SplitIfs

/-! # Results that may fail

Rules that take apart a successful sequence of steps.
-/

namespace GiPricing.Failure

universe u

variable {ε : Type*} {α β : Type u}

def error? {α : Type*} : Except ε α → Option ε
  | .error e => some e
  | .ok _ => none

theorem exists_ok {x : Except ε α} (h : x.isOk = true) : ∃ a, x = .ok a := by
  cases x with
  | error e => cases h
  | ok a => exact ⟨a, rfl⟩

theorem bind_eq_ok {x : Except ε α} {f : α → Except ε β} {b : β} :
    x >>= f = .ok b ↔ ∃ a, x = .ok a ∧ f a = .ok b := by
  cases x <;> simp [bind, Except.bind]

theorem bind_eq_error {x : Except ε α} {f : α → Except ε β} {e : ε} :
    x >>= f = .error e ↔ x = .error e ∨ ∃ a, x = .ok a ∧ f a = .error e := by
  cases x <;> simp [bind, Except.bind]

theorem map_eq_ok {x : Except ε α} {f : α → β} {b : β} :
    x.map f = .ok b ↔ ∃ a, x = .ok a ∧ f a = b := by
  cases x <;> simp [Except.map]

theorem pure_eq_ok {a b : α} : (pure a : Except ε α) = .ok b ↔ a = b := by
  simp [pure, Except.pure]

theorem mapError_eq_ok {ε' : Type*} {α : Type*} {x : Except ε α} {f : ε → ε'} {a : α} :
    x.mapError f = .ok a ↔ x = .ok a := by
  cases x <;> simp [Except.mapError]

/-- Go on where the condition holds. -/
def ensure (c : Prop) [Decidable c] (e : ε) : Except ε PUnit := if c then .ok ⟨⟩ else .error e

theorem ensure_eq_ok {c : Prop} [Decidable c] {e : ε} {u : PUnit} :
    ensure c e = .ok u ↔ c := by
  unfold ensure
  split_ifs with h <;> simp [h]

def require (x : Option α) (e : ε) : Except ε α := x.elim (.error e) .ok

theorem require_eq_ok {x : Option α} {e : ε} {a : α} : require x e = .ok a ↔ x = some a := by
  cases x <;> simp [require]

theorem ensure_eq_error {c : Prop} [Decidable c] {e e' : ε} :
    ensure c e = .error e' ↔ ¬ c ∧ e = e' := by
  unfold ensure
  split_ifs with h <;> simp [h]

theorem require_eq_error {x : Option α} {e e' : ε} : require x e = .error e' ↔ x = none ∧ e = e' := by
  cases x <;> simp [require]

theorem ensure_bind_eq_ok {c : Prop} [Decidable c] {e : ε} {f : PUnit → Except ε β} {b : β} :
    ensure c e >>= f = .ok b ↔ c ∧ f ⟨⟩ = .ok b := by
  unfold ensure
  split_ifs with h <;> simp [h, bind, Except.bind]

theorem require_bind_eq_ok {x : Option α} {e : ε} {f : α → Except ε β} {b : β} :
    require x e >>= f = .ok b ↔ ∃ a, x = some a ∧ f a = .ok b := by
  simp only [bind_eq_ok, require_eq_ok]

/-- A map that succeeds on a list succeeded on each element. -/
theorem mapM_eq_ok {f : α → Except ε β} {l : List α} {r : List β} :
    l.mapM f = .ok r ↔ List.Forall₂ (fun a b => f a = .ok b) l r := by
  induction l generalizing r with
  | nil =>
    rw [List.mapM_nil, pure_eq_ok, List.forall₂_nil_left_iff]
    exact eq_comm
  | cons a l ih =>
    simp only [List.mapM_cons, bind_eq_ok, pure_eq_ok, ih]
    constructor
    · rintro ⟨b, hb, bs, hbs, rfl⟩
      exact .cons hb hbs
    · rintro (_ | ⟨hb, hbs⟩)
      exact ⟨_, hb, _, hbs, rfl⟩

theorem exists_mapM_ok {f : α → Except ε β} {l : List α} (h : ∀ a ∈ l, ∃ b, f a = .ok b) :
    ∃ r, l.mapM f = .ok r := by
  induction l with
  | nil => exact ⟨[], rfl⟩
  | cons a l ih =>
    obtain ⟨b, hb⟩ := h a List.mem_cons_self
    obtain ⟨r, hr⟩ := ih fun x hx => h x (List.mem_cons_of_mem _ hx)
    exact ⟨b :: r, mapM_eq_ok.mpr (.cons hb (mapM_eq_ok.mp hr))⟩

theorem exists_of_forall₂ {R : α → β → Prop} {l : List α} {l' : List β}
    (h : List.Forall₂ R l l') {a : α} (ha : a ∈ l) : ∃ b ∈ l', R a b := by
  induction h with
  | nil => cases ha
  | cons hab _ ih =>
    rcases List.mem_cons.mp ha with rfl | ha
    · exact ⟨_, List.mem_cons_self, hab⟩
    · obtain ⟨b, hb, hr⟩ := ih ha
      exact ⟨b, List.mem_cons_of_mem _ hb, hr⟩

theorem exists_mapM_ok_iff {f : α → Except ε β} {l : List α} :
    (∃ r, l.mapM f = .ok r) ↔ ∀ a ∈ l, ∃ b, f a = .ok b := by
  refine ⟨?_, exists_mapM_ok⟩
  rintro ⟨r, hr⟩ a ha
  obtain ⟨b, -, hb⟩ := exists_of_forall₂ (mapM_eq_ok.mp hr) ha
  exact ⟨b, hb⟩

theorem mapM_eq_error {f : α → Except ε β} {l : List α} {e : ε} :
    l.mapM f = .error e ↔ ∃ pre a post, l = pre ++ a :: post ∧
      (∀ x ∈ pre, ∃ b, f x = .ok b) ∧ f a = .error e := by
  induction l with
  | nil => simp [pure, Except.pure]
  | cons a l ih =>
    rw [List.mapM_cons]
    cases ha : f a with
    | error e' =>
      simp only [bind, Except.bind, Except.error.injEq]
      constructor
      · rintro rfl
        exact ⟨[], a, l, rfl, by simp, ha⟩
      · rintro ⟨pre, a', post, hl, hpre, ha'⟩
        cases pre with
        | nil =>
          obtain ⟨rfl, rfl⟩ := List.cons.inj hl
          rw [ha] at ha'
          exact Except.error.inj ha'
        | cons x pre =>
          obtain ⟨rfl, rfl⟩ := List.cons.inj hl
          obtain ⟨b, hb⟩ := hpre a List.mem_cons_self
          rw [ha] at hb
          cases hb
    | ok b =>
      have hbind : (do let y ← Except.ok b; let ys ← l.mapM f; pure (y :: ys)) = .error e ↔
          l.mapM f = .error e := by
        cases l.mapM f <;> simp [bind, Except.bind, pure, Except.pure]
      rw [hbind, ih]
      constructor
      · rintro ⟨pre, a', post, rfl, hpre, ha'⟩
        exact ⟨a :: pre, a', post, rfl, by simpa [ha] using hpre, ha'⟩
      · rintro ⟨pre, a', post, hl, hpre, ha'⟩
        cases pre with
        | nil =>
          obtain ⟨rfl, rfl⟩ := List.cons.inj hl
          rw [ha] at ha'
          cases ha'
        | cons x pre =>
          obtain ⟨rfl, rfl⟩ := List.cons.inj hl
          exact ⟨pre, a', post, rfl, fun y hy => hpre y (List.mem_cons_of_mem _ hy), ha'⟩

theorem foldlM_cons_eq_ok {f : β → α → Except ε β} {a : α} {l : List α} {b c : β} :
    (a :: l).foldlM f b = .ok c ↔ ∃ s, f b a = .ok s ∧ l.foldlM f s = .ok c := by
  rw [List.foldlM_cons, bind_eq_ok]

/-- Permuted lists are mapped alike: both fail, or the results are permuted. -/
theorem mapM_perm {f : α → Option β} {l l' : List α} (h : l.Perm l') :
    (l.mapM f = none ∧ l'.mapM f = none) ∨
      ∃ r r', l.mapM f = some r ∧ l'.mapM f = some r' ∧ r.Perm r' := by
  induction h with
  | nil => exact Or.inr ⟨[], [], by simp, by simp, .refl _⟩
  | cons a _ ih =>
    simp only [List.mapM_cons]
    cases f a with
    | none => exact Or.inl ⟨rfl, rfl⟩
    | some b =>
      rcases ih with ⟨h, h'⟩ | ⟨r, r', h, h', hp⟩
      · exact Or.inl ⟨by simp [h], by simp [h']⟩
      · exact Or.inr ⟨b :: r, b :: r', by simp [h], by simp [h'], hp.cons b⟩
  | swap a b l =>
    simp only [List.mapM_cons]
    cases ha : f a with
    | none => cases f b <;> exact Or.inl ⟨rfl, rfl⟩
    | some x =>
      cases hb : f b with
      | none => exact Or.inl ⟨rfl, rfl⟩
      | some y =>
        cases hl : l.mapM f with
        | none => exact Or.inl ⟨by simp, by simp⟩
        | some r => exact Or.inr ⟨y :: x :: r, x :: y :: r, by simp, by simp, .swap x y r⟩
  | trans _ _ ih ih' =>
    rcases ih with ⟨h, h'⟩ | ⟨r, r', h, h', hp⟩
    · rcases ih' with ⟨-, h₃⟩ | ⟨r₂, r₃, h₂, -, -⟩
      · exact Or.inl ⟨h, h₃⟩
      · rw [h'] at h₂; cases h₂
    · rcases ih' with ⟨h₂, -⟩ | ⟨r₂, r₃, h₂, h₃, hp'⟩
      · rw [h'] at h₂; cases h₂
      · obtain rfl : r' = r₂ := Option.some.inj (h'.symm.trans h₂)
        exact Or.inr ⟨r, r₃, h, h₃, hp.trans hp'⟩

end GiPricing.Failure
