import Mathlib.Data.Option.Basic
import Mathlib.Tactic.Common

/-! # Runs of a step system

A step takes a state and an event to the next state, where the event is enabled. What one step
preserves holds of every run, and two step properties that agree under an invariant agree along
every run.
-/

namespace GiPricing.Transition

variable {σ ε : Type*}

def run (step : σ → ε → Option σ) (s : σ) : List ε → Option σ
  | [] => some s
  | e :: es => (step s e).bind fun s' => run step s' es

/-- `P` holds of every step of the run. -/
def Always (step : σ → ε → Option σ) (P : σ → ε → σ → Prop) (s : σ) : List ε → Prop
  | [] => True
  | e :: es => ∀ s', step s e = some s' → P s e s' ∧ Always step P s' es

variable {step : σ → ε → Option σ} {P Q : σ → ε → σ → Prop} {Inv : σ → Prop} {s s' : σ} {e : ε}
  {es : List ε}

theorem run_cons_eq_some :
    run step s (e :: es) = some s' ↔ ∃ t, step s e = some t ∧ run step t es = some s' :=
  Option.bind_eq_some_iff

theorem run_append (es' : List ε) :
    run step s (es ++ es') = (run step s es).bind fun t => run step t es' := by
  induction es generalizing s with
  | nil => rfl
  | cons e es ih =>
    rw [List.cons_append, run, run]
    cases step s e with
    | none => rfl
    | some t => exact ih

/-- What every step preserves holds at the end of every run. -/
theorem run_preserves (hstep : ∀ s e s', Inv s → step s e = some s' → Inv s') (hs : Inv s)
    (h : run step s es = some s') : Inv s' := by
  induction es generalizing s with
  | nil =>
    cases h
    exact hs
  | cons e es ih =>
    obtain ⟨t, ht, h⟩ := run_cons_eq_some.mp h
    exact ih (hstep s e t hs ht) h

theorem always_of_preserves (hstep : ∀ s e s', Inv s → step s e = some s' → Inv s' ∧ P s e s')
    (hs : Inv s) (es : List ε) : Always step P s es := by
  induction es generalizing s with
  | nil => trivial
  | cons e es ih =>
    intro s' h
    obtain ⟨hs', hP⟩ := hstep s e s' hs h
    exact ⟨hP, ih hs'⟩

/-- Where every step of a run has `P`, and such a step keeps the invariant, each has what follows. -/
theorem Always.imp (h : Always step P s es)
    (hstep : ∀ s e s', Inv s → step s e = some s' → P s e s' → Inv s' ∧ Q s e s') (hs : Inv s) :
    Always step Q s es := by
  induction es generalizing s with
  | nil => trivial
  | cons e es ih =>
    intro s' he
    obtain ⟨hs', hQ⟩ := hstep s e s' hs he (h s' he).1
    exact ⟨hQ, ih (h s' he).2 hs'⟩

/-- Properties that agree on the steps from a state of the invariant agree along its runs, where
each step of the first one keeps the invariant. -/
theorem always_congr (hstep : ∀ s e s', Inv s → step s e = some s' → P s e s' → Inv s')
    (hPQ : ∀ s e s', Inv s → step s e = some s' → (P s e s' ↔ Q s e s')) (hs : Inv s)
    (es : List ε) : Always step P s es ↔ Always step Q s es := by
  induction es generalizing s with
  | nil => exact Iff.rfl
  | cons e es ih =>
    refine forall_congr' fun s' => imp_congr_right fun h => ?_
    rw [← hPQ s e s' hs h]
    exact and_congr_right fun hP => ih (hstep s e s' hs h hP)

/-- A property of every step holds of the last one. -/
theorem Always.last (h : Always step P s (es ++ [e])) {t : σ} (ht : run step s es = some t)
    (he : step t e = some s') : P t e s' := by
  induction es generalizing s with
  | nil =>
    cases ht
    exact (h s' he).1
  | cons d es ih =>
    obtain ⟨u, hu, ht⟩ := run_cons_eq_some.mp ht
    exact ih (h u hu).2 ht

theorem run_history {ι : Type*} {Item : σ → ι → Prop} {Q : ι → ε → Prop}
    (hinv : ∀ s e s', Inv s → step s e = some s' → Inv s')
    (hstep : ∀ s e s', Inv s → step s e = some s' → ∀ x, Item s' x → Item s x ∨ Q x e)
    (hs : Inv s) (h : run step s es = some s') {x : ι} (hx : Item s' x) :
    Item s x ∨ ∃ e ∈ es, Q x e := by
  induction es generalizing s with
  | nil =>
    cases h
    exact Or.inl hx
  | cons e es ih =>
    obtain ⟨t, ht, h⟩ := run_cons_eq_some.mp h
    rcases ih (hinv s e t hs ht) h with hi | ⟨e', he', hq⟩
    · rcases hstep s e t hs ht x hi with hi | hq
      · exact Or.inl hi
      · exact Or.inr ⟨e, List.mem_cons_self, hq⟩
    · exact Or.inr ⟨e', List.mem_cons_of_mem e he', hq⟩

end GiPricing.Transition
