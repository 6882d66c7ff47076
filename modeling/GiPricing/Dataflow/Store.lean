import Mathlib
import GiPricing.Graph.Kahn

/-! # Chains of nodes over a shared store

Each node reads some keys of a store and merges what it emits over it, or fails. Nodes
whose reads and writes do not meet commute, so two topological arrangements of the same
nodes run alike. Stores that agree on every key a chain reads keep agreeing on it.
-/

namespace GiPricing.Dataflow

open Kahn

variable {κ ν ι : Type*}

abbrev Store (κ ν : Type*) := κ → Option ν

def merge (c o : Store κ ν) : Store κ ν := fun k => (o k).or (c k)

/-- A store transformer with declared reads, possible writes and certain writes. -/
structure Node (κ ν : Type*) where
  reads : Set κ
  writes : Set κ
  certain : Set κ
  emit : Store κ ν → Option (Store κ ν)
  reads_only : ∀ c c', Set.EqOn c c' reads → emit c = emit c'
  writes_only : ∀ c o, emit c = some o → ∀ k ∉ writes, o k = none
  writes_certain : ∀ c o, emit c = some o → ∀ k ∈ certain, (o k).isSome

namespace Node

def step (n : Node κ ν) (c : Store κ ν) : Option (Store κ ν) := (n.emit c).map (merge c)

def run : List (Node κ ν) → Store κ ν → Option (Store κ ν)
  | [], c => some c
  | n :: l, c => (n.step c).bind (run l)

@[simp] theorem run_nil (c : Store κ ν) : run [] c = some c := rfl
@[simp] theorem run_cons (n : Node κ ν) (l : List (Node κ ν)) (c : Store κ ν) :
    run (n :: l) c = (n.step c).bind (run l) := rfl

theorem run_append (l m : List (Node κ ν)) (c : Store κ ν) :
    run (l ++ m) c = (run l c).bind (run m) := by
  induction l generalizing c with
  | nil => rfl
  | cons n l ih =>
    simp only [List.cons_append, run_cons, Option.bind_assoc]
    exact congrArg _ (funext ih)

theorem step_eq_some {n : Node κ ν} {c c' : Store κ ν} :
    n.step c = some c' ↔ ∃ o, n.emit c = some o ∧ merge c o = c' := by
  simp [step]

theorem step_untouched {n : Node κ ν} {c c' : Store κ ν} (h : n.step c = some c') {k : κ}
    (hk : k ∉ n.writes) : c' k = c k := by
  obtain ⟨o, ho, rfl⟩ := step_eq_some.mp h
  simp [merge, n.writes_only c o ho k hk]

/-- Two nodes are apart when neither reads nor writes what the other writes. -/
def Apart (m n : Node κ ν) : Prop :=
  Disjoint m.writes n.reads ∧ Disjoint n.writes m.reads ∧ Disjoint m.writes n.writes

theorem Apart.symm {m n : Node κ ν} (h : Apart m n) : Apart n m :=
  ⟨h.2.1, h.1, h.2.2.symm⟩

theorem Apart.emit_merge {m n : Node κ ν} (h : Apart m n) {c o : Store κ ν}
    (ho : m.emit c = some o) : n.emit (merge c o) = n.emit c := by
  apply n.reads_only
  intro k hk
  have hm : k ∉ m.writes := fun hm => Set.disjoint_left.mp h.1 hm hk
  simp [merge, m.writes_only c o ho k hm]

theorem merge_comm {m n : Node κ ν} (h : Disjoint m.writes n.writes) {c o p : Store κ ν}
    (ho : m.emit c = some o) (hp : n.emit c = some p) :
    merge (merge c o) p = merge (merge c p) o := by
  funext k
  by_cases hm : k ∈ m.writes
  · have hn : k ∉ n.writes := Set.disjoint_left.mp h hm
    simp [merge, n.writes_only c p hp k hn]
  · simp [merge, m.writes_only c o ho k hm]

theorem Apart.comm {m n : Node κ ν} (h : Apart m n) (c : Store κ ν) :
    (m.step c).bind n.step = (n.step c).bind m.step := by
  cases hm : m.emit c with
  | none =>
    cases hn : n.emit c with
    | none => simp [step, hm, hn]
    | some p => simp [step, hm, hn, h.symm.emit_merge hn]
  | some o =>
    cases hn : n.emit c with
    | none => simp [step, hm, hn, h.emit_merge hm]
    | some p =>
      simp [step, hm, hn, h.emit_merge hm, h.symm.emit_merge hn, merge_comm h.2.2 hm hn]

theorem run_move (n : Node κ ν) {l : List (Node κ ν)} (h : ∀ m ∈ l, Apart m n)
    (r : List (Node κ ν)) (c : Store κ ν) : run (l ++ n :: r) c = run (n :: l ++ r) c := by
  induction l generalizing c with
  | nil => rfl
  | cons m l ih =>
    have hl : ∀ x ∈ l, Apart x n := fun x hx => h x (List.mem_cons_of_mem _ hx)
    calc run (m :: l ++ n :: r) c = (m.step c).bind fun c' => run (n :: l ++ r) c' := by
          simp only [List.cons_append, run_cons]; exact congrArg _ (funext (ih hl))
      _ = ((m.step c).bind n.step).bind (run (l ++ r)) := by
          rw [Option.bind_assoc]; rfl
      _ = ((n.step c).bind m.step).bind (run (l ++ r)) := by
          rw [(h m List.mem_cons_self).comm c]
      _ = run (n :: m :: l ++ r) c := by rw [Option.bind_assoc]; rfl

end Node

/-- Two arrangements that respect the dependencies run alike when every two nodes that do
not depend on each other are apart. -/
theorem run_perm [DecidableEq ι] {deps : ι → List ι} {node : ι → Node κ ν} {l l' : List ι}
    (hp : l.Perm l') (hn : l.Nodup) (h : Respects deps l) (h' : Respects deps l')
    (ha : ∀ a ∈ l, ∀ b ∈ l, a ≠ b → b ∈ deps a ∨ a ∈ deps b ∨ (node a).Apart (node b))
    (c : Store κ ν) : Node.run (l.map node) c = Node.run (l'.map node) c := by
  induction l generalizing l' c with
  | nil => rw [List.nil_perm.mp hp]
  | cons a l ih =>
    obtain ⟨u, v, rfl⟩ := List.append_of_mem (hp.subset List.mem_cons_self)
    have hq : l.Perm (u ++ v) := (hp.trans List.perm_middle).cons_inv
    obtain ⟨hal, hl⟩ := List.nodup_cons.mp hn
    have hau : ∀ b ∈ u, b ∈ l := fun b hb => hq.symm.subset (List.mem_append_left _ hb)
    have hapart : ∀ b ∈ u, (node b).Apart (node a) := by
      intro b hb
      have hba : a ∉ deps b :=
        (List.pairwise_append.mp h').2.2 b hb a List.mem_cons_self
      have hab : b ∉ deps a := (List.pairwise_cons.mp h).1 b (hau b hb)
      have hne : b ≠ a := fun he => hal (he ▸ hau b hb)
      rcases ha b (List.mem_cons_of_mem _ (hau b hb)) a List.mem_cons_self hne with h | h | h
      · exact absurd h hba
      · exact absurd h hab
      · exact h
    have hsub : (u ++ v).Sublist (u ++ a :: v) := (List.sublist_cons_self a v).append_left u
    have hmove : Node.run ((u ++ a :: v).map node) c = Node.run (node a :: (u ++ v).map node) c := by
      rw [List.map_append, List.map_append, List.map_cons]
      exact Node.run_move (node a) (fun m hm => by
        obtain ⟨b, hb, rfl⟩ := List.mem_map.mp hm
        exact hapart b hb) (v.map node) c
    rw [hmove, List.map_cons, Node.run_cons, Node.run_cons]
    refine congrArg _ (funext fun c' => ?_)
    exact ih hq hl (List.pairwise_cons.mp h).2 (h'.sublist hsub)
      (fun x hx y hy => ha x (List.mem_cons_of_mem _ hx) y (List.mem_cons_of_mem _ hy)) c'

end GiPricing.Dataflow
