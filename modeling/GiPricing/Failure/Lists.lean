import GiPricing.Failure.Except

/-! # Lists of steps that may fail

Checks, maps and folds over a list, from what each element gives.
-/

namespace GiPricing.Failure

variable {ε : Type*} {α β σ : Type}

/-- A check of a list passes when it passes each element. -/
theorem forM_eq_ok {check : α → Except ε PUnit} {l : List α} {u : PUnit} :
    l.forM check = .ok u ↔ ∀ a ∈ l, check a = .ok ⟨⟩ := by
  induction l with
  | nil => simp [pure, Except.pure]
  | cons a l ih =>
    have hcons : (a :: l).forM check = (check a >>= fun _ => l.forM check) := rfl
    rw [hcons, bind_eq_ok, List.forall_mem_cons]
    constructor
    · rintro ⟨⟨⟩, ha, hl⟩
      exact ⟨ha, ih.mp hl⟩
    · rintro ⟨ha, hl⟩
      exact ⟨⟨⟩, ha, ih.mpr hl⟩

theorem mapM_same {f g : α → Except ε β} {l : List α} (h : ∀ a ∈ l, f a = g a) :
    l.mapM f = l.mapM g := by
  induction l with
  | nil => rfl
  | cons a l ih =>
    rw [List.mapM_cons, List.mapM_cons, h a List.mem_cons_self,
      ih fun x hx => h x (List.mem_cons_of_mem _ hx)]

theorem exists_map_of_mapM {γ : Type} [Inhabited β] {f : α → Except ε β} {k : α → β → γ} {l : List α}
    {r : List γ} (h : (l.mapM fun a => (f a).map (k a)) = .ok r) :
    ∃ g : α → β, (∀ a ∈ l, f a = .ok (g a)) ∧ r = l.map fun a => k a (g a) := by
  refine ⟨fun a => ((f a).toOption).getD default, ?_⟩
  rw [mapM_eq_ok] at h
  induction h with
  | nil => simp
  | cons ha _ ih =>
    obtain ⟨b, hb, rfl⟩ := map_eq_ok.mp ha
    obtain ⟨hall, rfl⟩ := ih
    rw [List.forall_mem_cons]
    exact ⟨⟨by simp [hb, Except.toOption], hall⟩, by simp [hb, Except.toOption]⟩

theorem anyM_congr {p : α → Except ε Bool} {q : β → Except ε Bool} {l : List α} {m : List β}
    (h : List.Forall₂ (fun a b => p a = q b) l m) : l.anyM p = m.anyM q := by
  induction h with
  | nil => rfl
  | cons hab _ ih => rw [List.anyM, List.anyM, hab, ih]

theorem foldlM_same {f g : σ → α → Except ε σ} {l : List α} {s : σ}
    (h : ∀ a ∈ l, ∀ s, f s a = g s a) : l.foldlM f s = l.foldlM g s := by
  induction l generalizing s with
  | nil => rfl
  | cons a l ih =>
    rw [List.foldlM_cons, List.foldlM_cons, h a List.mem_cons_self]
    congr 1
    funext s'
    exact ih fun x hx => h x (List.mem_cons_of_mem _ hx)

theorem foldlM_related {R : σ → σ → Prop} {step step' : σ → α → Except ε σ} {l : List α}
    {s s' t t' : σ}
    (hstep : ∀ a ∈ l, ∀ s s' t t', R s s' → step s a = .ok t → step' s' a = .ok t' → R t t')
    (h : R s s') (ht : l.foldlM step s = .ok t) (ht' : l.foldlM step' s' = .ok t') : R t t' := by
  induction l generalizing s s' with
  | nil =>
    cases ht
    cases ht'
    exact h
  | cons a l ih =>
    obtain ⟨u, hu, ht⟩ := foldlM_cons_eq_ok.mp ht
    obtain ⟨u', hu', ht'⟩ := foldlM_cons_eq_ok.mp ht'
    exact ih (fun x hx => hstep x (List.mem_cons_of_mem _ hx))
      (hstep a List.mem_cons_self _ _ _ _ h hu hu') ht ht'

theorem exists_mapM_some {f : α → Option β} {R : α → β → Prop} {l : List α}
    (h : ∀ a ∈ l, ∃ b, f a = some b ∧ R a b) : ∃ r, l.mapM f = some r ∧ List.Forall₂ R l r := by
  induction l with
  | nil => exact ⟨[], by simp, .nil⟩
  | cons a l ih =>
    obtain ⟨b, hb, hab⟩ := h a List.mem_cons_self
    obtain ⟨r, hr, hall⟩ := ih fun x hx => h x (List.mem_cons_of_mem _ hx)
    exact ⟨b :: r, by simp [hb, hr], .cons hab hall⟩

theorem mapM_eq_some_map {f : α → Option β} {g : α → β} {l : List α}
    (h : ∀ a ∈ l, f a = some (g a)) : l.mapM f = some (l.map g) := by
  induction l with
  | nil => simp
  | cons a l ih =>
    rw [List.mapM_cons, h a List.mem_cons_self, ih fun x hx => h x (List.mem_cons_of_mem _ hx)]
    rfl

theorem isSome_bind_iff {x : Option α} {f : α → Option β} {P : Prop}
    (h : ∀ a, (f a).isSome = true ↔ P) : (x >>= f).isSome = true ↔ x.isSome = true ∧ P := by
  cases x with
  | none => simp
  | some a => simp [h]

theorem isSome_mapM {f : α → Option β} {l : List α} :
    (l.mapM f).isSome = true ↔ ∀ a ∈ l, (f a).isSome = true := by
  induction l with
  | nil => simp
  | cons a l ih =>
    rw [List.mapM_cons, List.forall_mem_cons, ← ih]
    apply isSome_bind_iff
    intro b
    cases l.mapM f <;> simp

theorem isSome_foldlM {step : σ → α → Option σ} {P : α → Prop} {l : List α} {s : σ}
    (h : ∀ a s, (step s a).isSome = true ↔ P a) :
    (l.foldlM step s).isSome = true ↔ ∀ a ∈ l, P a := by
  induction l generalizing s with
  | nil => simp
  | cons a l ih =>
    rw [List.foldlM_cons, List.forall_mem_cons, ← h a s]
    exact isSome_bind_iff fun _ => ih

end GiPricing.Failure
