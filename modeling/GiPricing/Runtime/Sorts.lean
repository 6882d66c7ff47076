import Mathlib
import GiPricing.Factors.Design
import GiPricing.Graph.Stable
import GiPricing.Runtime.Order

/-! # The two sorts

The sort that inlining puts the steps of an algorithm in, by their places, and the one that the wire
puts the interior steps in, by their ids. Both always take the ready step that is listed first.
-/

namespace GiPricing

/-! ## The sort of the wire -/

/-- `to_jdm`: the steps by their ids. -/
def toJdm (steps : List RatingStep) : Dict RatingStep :=
  steps.foldl (fun nodes s => nodes.insert s.stepId s) .empty

/-- `_ENGINE_NODE_TYPE`: the ids of the steps that the engine evaluates. -/
def interiorIds (graph : Dict RatingStep) : List String :=
  (graph.entries.filter fun node => node.2.isInterior).map Prod.fst

namespace DependencyOrder

variable (graph : Dict RatingStep) (ids : List String)

/-- `graph.nodes[step_id]["consumes"]`. -/
def consumes (stepId : String) : List String :=
  ((graph.get? stepId).map RatingStep.consumes).getD []

/-- `graph.nodes[step_id]["produces"]`. -/
def produces (stepId : String) : List String :=
  ((graph.get? stepId).map RatingStep.produces).getD []

def position (stepId : String) : ℕ := ids.idxOf stepId

def producers (name : String) : List String := ids.filter fun id => name ∈ produces graph id

def needs (stepId : String) : List String :=
  ((consumes graph stepId).flatMap fun name =>
    (producers graph ids name).filter (· ≠ stepId)).dedup

def dependents (producer : String) : List String :=
  ids.filter fun stepId => producer ∈ needs graph ids stepId

/-- The loop state: the heap holds positions. -/
structure State where
  pending : String → ℕ
  ready : List ℕ
  order : List String

def start : State where
  pending stepId := (needs graph ids stepId).length
  ready := (ids.filter fun stepId => (needs graph ids stepId).length = 0).map (position ids)
  order := []

/-- One dependent of the step that was taken. -/
def release (s : State) (other : String) : State :=
  let left := s.pending other - 1
  { s with
    pending := Function.update s.pending other left
    ready := if left = 0 then s.ready ++ [position ids other] else s.ready }

/-- One turn of the loop. -/
def step (s : State) : Option State :=
  (s.ready.argmin id).bind fun index => ids[index]?.map fun stepId =>
    (dependents graph ids stepId).foldl (release ids)
      { s with ready := s.ready.erase index, order := s.order ++ [stepId] }

def run : ℕ → State → State
  | 0, s => s
  | n + 1, s => match step graph ids s with
    | none => s
    | some s' => run n s'

end DependencyOrder

/-- `_dependency_order`. A position is queued once, so the fuel is never exhausted. -/
def dependencyOrderIds (graph : Dict RatingStep) (ids : List String) :
    Except WireFailure (List String) :=
  let order := (DependencyOrder.run graph ids ids.length (DependencyOrder.start graph ids)).order
  if order.length ≠ ids.length then .error .graphCycle else .ok order

/-! ## The loop by ids -/

namespace DependencyOrder

variable {graph : Dict RatingStep} {ids : List String}

theorem mem_needs {a b : String} : b ∈ needs graph ids a ↔
    b ∈ ids ∧ b ≠ a ∧ ∃ x ∈ consumes graph a, x ∈ produces graph b := by
  simp only [needs, producers, List.mem_dedup, List.mem_flatMap, List.mem_filter,
    decide_eq_true_eq]
  tauto

theorem wellFormed (hn : ids.Nodup) : Kahn.WellFormed (needs graph ids) ids where
  nodup := hn
  deps_nodup _ := List.nodup_dedup _
  deps_mem _ _ _ hb := (mem_needs.mp hb).1
  irrefl _ h := (mem_needs.mp h).2.1 rfl

/-- The loop over positions does what Kahn's loop over ids does. -/
structure Simulates (ids : List String) (k : Kahn.State String) (s : State) : Prop where
  pending : s.pending = k.pending
  ready : s.ready = k.ready.map (position ids)
  order : s.order = k.order
  mem : ∀ a ∈ k.ready, a ∈ ids

theorem position_injOn {a b : String} (ha : a ∈ ids) (h : position ids a = position ids b) :
    a = b := (List.idxOf_inj ha).mp h

theorem map_erase_position {l : List String} (hl : ∀ a ∈ l, a ∈ ids) (a : String) :
    (l.erase a).map (position ids) = (l.map (position ids)).erase (position ids a) := by
  induction l with
  | nil => rfl
  | cons b l ih =>
    by_cases hb : b = a
    · subst hb
      simp
    · have hp : position ids b ≠ position ids a := fun h => hb (position_injOn (hl b (by simp)) h)
      rw [List.erase_cons_tail (by simpa using hb), List.map_cons, List.map_cons,
        List.erase_cons_tail (by simpa using hp), ih fun c hc => hl c (List.mem_cons_of_mem _ hc)]

theorem simulates_foldl (graph : Dict RatingStep) (sid : String) :
    ∀ (l : List String) (k : Kahn.State String) (s : State), (∀ a ∈ l, a ∈ ids) → Simulates ids k s →
    Simulates ids (l.foldl (Kahn.settle (needs graph ids) sid) k)
      ((l.filter fun other => sid ∈ needs graph ids other).foldl (release ids) s) := by
  intro l
  induction l with
  | nil => exact fun _ _ _ h => h
  | cons other l ih =>
    intro k s hl h
    have hl' := fun a ha => hl a (List.mem_cons_of_mem other ha)
    rw [List.foldl_cons]
    by_cases hd : sid ∈ needs graph ids other
    · rw [List.filter_cons_of_pos (by simpa using hd), List.foldl_cons]
      apply ih _ _ hl'
      constructor
      · simp only [release, Kahn.settle, if_pos hd, h.pending]
      · simp only [release, Kahn.settle, if_pos hd, h.pending, h.ready]
        split_ifs <;> simp
      · simp only [release, Kahn.settle, if_pos hd, h.order]
      · intro a ha
        simp only [Kahn.settle, if_pos hd] at ha
        split_ifs at ha
        · obtain ha | ha := List.mem_append.mp ha
          · exact h.mem a ha
          · rw [List.mem_singleton.mp ha]
            exact hl other (by simp)
        · exact h.mem a ha
    · rw [List.filter_cons_of_neg (by simpa using hd), Kahn.settle, if_neg hd]
      exact ih _ _ hl' h

/-- Both take the same step, or none. -/
theorem simulates_step {k : Kahn.State String} {s : State} (h : Simulates ids k s) :
    (Kahn.step (Kahn.heap (position ids)) (needs graph ids) ids k = none ∧
      step graph ids s = none) ∨
    ∃ k' s', Kahn.step (Kahn.heap (position ids)) (needs graph ids) ids k = some k' ∧
      step graph ids s = some s' ∧ Simulates ids k' s' := by
  cases hpop : k.ready.argmin (position ids) with
  | none =>
    left
    have hnil := List.argmin_eq_none.mp hpop
    simp [Kahn.step, Kahn.heap, step, h.ready, hnil]
  | some a =>
    right
    have ha := List.argmin_mem hpop
    have hmin : s.ready.argmin id = some (position ids a) := by
      cases hs : s.ready.argmin id with
      | none =>
        rw [List.argmin_eq_none, h.ready, List.map_eq_nil_iff] at hs
        rw [hs] at ha
        cases ha
      | some i =>
        have hi := List.argmin_mem hs
        rw [h.ready, List.mem_map] at hi
        obtain ⟨b, hb, rfl⟩ := hi
        have hle := List.le_of_mem_argmin hb hpop
        have hge : position ids b ≤ position ids a := List.le_of_mem_argmin (f := id)
          (h.ready ▸ List.mem_map_of_mem ha : position ids a ∈ s.ready) hs
        rw [le_antisymm hge hle]
    have hget : ids[position ids a]? = some a := List.getElem?_idxOf (h.mem a ha)
    refine ⟨_, _, ?_, ?_, simulates_foldl graph a ids
      { k with ready := k.ready.erase a, order := k.order ++ [a] }
      { s with ready := s.ready.erase (position ids a), order := s.order ++ [a] }
      (fun _ h => h) ?_⟩
    · simp [Kahn.step, Kahn.heap, hpop]
    · simp only [step, hmin, Option.bind_some, hget, Option.map_some]
      rfl
    · constructor
      · exact h.pending
      · simp only [h.ready]
        exact (map_erase_position h.mem a).symm
      · simp only [h.order]
      · exact fun b hb => h.mem b (List.mem_of_mem_erase hb)

theorem simulates_run {n : ℕ} : ∀ {k : Kahn.State String} {s : State}, Simulates ids k s →
    (run graph ids n s).order =
      (Kahn.run (Kahn.heap (position ids)) (needs graph ids) ids n k).order := by
  induction n with
  | zero => exact fun h => h.order
  | succ n ih =>
    intro k s h
    rw [run, Kahn.run]
    obtain ⟨hk, hs⟩ | ⟨k', s', hk, hs, h'⟩ := @simulates_step graph _ _ _ h
    · rw [hk, hs]
      exact h.order
    · rw [hk, hs]
      exact ih h'

theorem order_eq : (run graph ids ids.length (start graph ids)).order =
    Kahn.order (Kahn.heap (position ids)) (needs graph ids) ids :=
  simulates_run ⟨rfl, rfl, rfl, fun _ ha => (List.mem_filter.mp ha).1⟩

end DependencyOrder

/-! ## Orders of a list -/

section Places

variable {steps l : List RatingStep}

/-- Every step of the list stands after the steps whose values it consumes. -/
def Ordered (steps : List RatingStep) : Prop :=
  steps.Pairwise fun s t => ∀ x ∈ s.consumes, x ∉ t.produces

/-- Some step depends on itself through others. -/
def HasCycle (steps : List RatingStep) : Prop :=
  ∃ i, Relation.TransGen (fun i j => j ∈ dependenciesAt steps i) i i

def pick (steps : List RatingStep) (places : List ℕ) : List RatingStep :=
  places.filterMap (steps[·]?)

/-- The places that the steps of a list are taken from, the first ready place each time. -/
abbrev Taken (steps : List RatingStep) (places : List ℕ) : Prop :=
  Kahn.Stable id (dependenciesAt steps) (List.range steps.length) places

theorem acyclic_iff_not_hasCycle :
    Kahn.Acyclic (dependenciesAt steps) (List.range steps.length) ↔ ¬ HasCycle steps := by
  rw [Kahn.acyclic_iff (wellFormedAt steps)]
  constructor
  · rintro h ⟨i, hi⟩
    obtain ⟨j, hj, -⟩ := Relation.TransGen.head'_iff.mp hi
    obtain ⟨-, _, _, hs, -⟩ := mem_dependenciesAt.mp hj
    exact h i (List.mem_range.mpr (List.getElem?_eq_some_iff.mp hs).1) hi
  · intro h i _ hi
    exact h ⟨i, hi⟩

theorem topological_range_iff :
    Kahn.Topological (dependenciesAt steps) (List.range steps.length) ↔ Ordered steps := by
  constructor
  · intro h
    have hpairs := List.pairwise_iff_getElem.mp (h.respects List.nodup_range)
    refine List.pairwise_iff_getElem.mpr fun i j hi hj hij x hx hy => ?_
    refine hpairs i j (by simpa using hi) (by simpa using hj) hij ?_
    rw [List.getElem_range, List.getElem_range, mem_dependenciesAt]
    exact ⟨hij.ne', _, _, List.getElem?_eq_getElem hi, List.getElem?_eq_getElem hj, x, hx, hy⟩
  · intro h p i after hl j hj
    have hsorted := hl ▸ List.pairwise_lt_range (n := steps.length)
    have hmem : j ∈ p ++ i :: after := hl ▸ (wellFormedAt steps).deps_mem i (by simp [hl]) j hj
    obtain ⟨hne, s, t, hs, ht, x, hx, hy⟩ := mem_dependenciesAt.mp hj
    obtain ⟨hi, rfl⟩ := List.getElem?_eq_some_iff.mp hs
    obtain ⟨hj, rfl⟩ := List.getElem?_eq_some_iff.mp ht
    refine (List.mem_append.mp hmem).resolve_right fun hafter => ?_
    have hij := List.rel_of_pairwise_cons (List.pairwise_append.mp hsorted).2.1
      ((List.mem_cons.mp hafter).resolve_left hne)
    exact List.pairwise_iff_getElem.mp h i j hi hj hij x hx hy

theorem taken_order (h : ¬ HasCycle steps) :
    Taken steps (Kahn.order (Kahn.heap id) (dependenciesAt steps) (List.range steps.length)) :=
  Kahn.order_stable (wellFormedAt steps) (acyclic_iff_not_hasCycle.mpr h)

theorem stableTopological_taken (h : ¬ HasCycle steps) :
    ∃ places, Taken steps places ∧ stableTopological steps = pick steps places := by
  have hlen := (Kahn.length_order_iff (d := Kahn.heap id) (wellFormedAt steps)).mpr
    (acyclic_iff_not_hasCycle.mpr h)
  rw [List.length_range] at hlen
  exact ⟨_, taken_order h, if_pos hlen⟩

theorem stableTopological_of_taken {places : List ℕ} (h : Taken steps places) :
    stableTopological steps = pick steps places ∧ ¬ HasCycle steps := by
  have w := wellFormedAt steps
  have hacyclic := h.topological.acyclic (h.nodup w.nodup) fun i hi => h.perm.mem_iff.mpr hi
  have hcycle := acyclic_iff_not_hasCycle.mp hacyclic
  obtain ⟨places', h', heq⟩ := stableTopological_taken hcycle
  refine ⟨?_, hcycle⟩
  rw [heq, Kahn.Stable.unique w.nodup Function.injective_id.injOn h' h]

theorem stableTopological_cycle (h : HasCycle steps) : stableTopological steps = steps := by
  have hlen := (Kahn.length_order_iff (d := Kahn.heap id) (wellFormedAt steps)).not.mpr
    fun ha => acyclic_iff_not_hasCycle.mp ha h
  rw [List.length_range] at hlen
  exact if_neg hlen

theorem taken_range (h : Ordered steps) : Taken steps (List.range steps.length) :=
  Kahn.Stable.self (topological_range_iff.mpr h) (List.pairwise_le_range)

theorem stableTopological_ordered (h : Ordered steps) : stableTopological steps = steps := by
  rw [(stableTopological_of_taken (taken_range h)).1, pick, filterMap_range]

theorem ordered_pick {places : List ℕ} (h : Taken steps places) : Ordered (pick steps places) := by
  have hrespects := h.topological.respects (h.nodup List.nodup_range)
  have hnodup := List.nodup_iff_pairwise_ne.mp (h.nodup List.nodup_range)
  refine List.Pairwise.filterMap _ ?_ (hrespects.and hnodup)
  intro i j hij s hs t ht x hx hy
  exact hij.1 (mem_dependenciesAt.mpr ⟨hij.2.symm, s, t, hs, ht, x, hx, hy⟩)

theorem dependencyOrder_taken {places : List ℕ} (h : Taken steps places) :
    dependencyOrder steps = .ok (pick steps places) := by
  obtain ⟨-, hcycle⟩ := stableTopological_of_taken h
  rw [dependencyOrder_eq_ok, acyclic_iff_not_hasCycle]
  refine ⟨hcycle, ?_⟩
  rw [Kahn.Stable.unique List.nodup_range Function.injective_id.injOn (taken_order hcycle) h]
  rfl

theorem dependencyOrder_cycle (h : HasCycle steps) : dependencyOrder steps = .error .graphCycle := by
  have hlen := (Kahn.length_order_iff (d := Kahn.heap id) (wellFormedAt steps)).not.mpr
    fun ha => acyclic_iff_not_hasCycle.mp ha h
  rw [List.length_range] at hlen
  exact if_neg hlen

/-! ## The interior steps of a list -/

/-- An input or an output that a step reads from stands before it, and itself reads nothing that is
produced. -/
def InputsFirst (steps : List RatingStep) : Prop :=
  ∀ i, ∀ j ∈ dependenciesAt steps i, steps[j]?.any RatingStep.isInterior = false →
    dependenciesAt steps j = [] ∧ j < i

def interiorPlaces (steps : List RatingStep) : List ℕ :=
  (List.range steps.length).filter fun i => steps[i]?.any RatingStep.isInterior

theorem map_interiorPlaces (steps : List RatingStep) : (interiorPlaces steps).map (steps[·]?) =
    (steps.filter RatingStep.isInterior).map some := by
  have hall : (List.range steps.length).map (steps[·]?) = steps.map some := by
    apply List.ext_getElem
    · simp
    · intro i hi _
      have hlt : i < steps.length := by simpa using hi
      simp [hlt]
  calc (interiorPlaces steps).map (steps[·]?)
    _ = ((List.range steps.length).map (steps[·]?)).filter (Option.any RatingStep.isInterior) := by
      rw [List.filter_map]
      rfl
    _ = (steps.filter RatingStep.isInterior).map some := by
      rw [hall, List.filter_map]
      rfl

theorem getElem?_idxOf_interiorPlaces {i : ℕ} (hi : i ∈ interiorPlaces steps) :
    (steps.filter RatingStep.isInterior)[(interiorPlaces steps).idxOf i]? = steps[i]? := by
  have hmap := congrArg (·[(interiorPlaces steps).idxOf i]?) (map_interiorPlaces steps)
  simp only [List.getElem?_map, List.getElem?_idxOf hi, Option.map_some] at hmap
  cases h : (steps.filter RatingStep.isInterior)[(interiorPlaces steps).idxOf i]? with
  | none => rw [h] at hmap; cases hmap
  | some s =>
    rw [h] at hmap
    exact (Option.some.inj hmap).symm

theorem length_interiorPlaces :
    (interiorPlaces steps).length = (steps.filter RatingStep.isInterior).length := by
  have := congrArg List.length (map_interiorPlaces steps)
  simpa using this

/-- A sort of the whole list sorts its interior steps. -/
theorem taken_interior (hfirst : InputsFirst steps) {places : List ℕ} (h : Taken steps places) :
    Taken (steps.filter RatingStep.isInterior)
      ((places.filter fun i => steps[i]?.any RatingStep.isInterior).map
        (interiorPlaces steps).idxOf) := by
  have hrange : ∀ {i}, i ∈ interiorPlaces steps ↔
      i < steps.length ∧ steps[i]?.any RatingStep.isInterior := by
    intro i
    rw [interiorPlaces, List.mem_filter, List.mem_range]
  have hnodup : (interiorPlaces steps).Nodup := List.nodup_range.filter _
  have hsorted : (interiorPlaces steps).Pairwise (· < ·) := List.pairwise_lt_range.filter _
  have houter : Kahn.Stable id
      (fun i => (dependenciesAt steps i).filter fun j => steps[j]?.any RatingStep.isInterior)
      (interiorPlaces steps) (places.filter fun i => steps[i]?.any RatingStep.isInterior) := by
    apply h.filter
    · intro i _ _ j
      rw [List.mem_filter]
    · intro i hi j hj hout
      exact ⟨(wellFormedAt steps).deps_mem i hi j hj, hfirst i j hj hout⟩
  have hplaces : (interiorPlaces steps).map (interiorPlaces steps).idxOf =
      List.range (steps.filter RatingStep.isInterior).length := by
    apply List.ext_getElem
    · rw [List.length_map, List.length_range, length_interiorPlaces]
    · intro k hk _
      rw [List.getElem_map, List.getElem_range]
      exact hnodup.idxOf_getElem k (by simpa using hk)
  rw [Taken, ← hplaces]
  refine houter.map ?_ ?_ ?_ ?_ ?_
  · intro i hi j _ he
    exact (List.idxOf_inj hi).mp he
  · intro i hi j hj
    obtain ⟨hj, hjk⟩ := List.mem_filter.mp hj
    exact hrange.mpr ⟨List.mem_range.mp ((wellFormedAt steps).deps_mem i
      (List.mem_range.mpr (hrange.mp hi).1) j hj), hjk⟩
  · intro i hi j hj
    rw [mem_dependenciesAt, getElem?_idxOf_interiorPlaces hi, getElem?_idxOf_interiorPlaces hj,
      List.mem_filter, mem_dependenciesAt]
    have hne : (interiorPlaces steps).idxOf j ≠ (interiorPlaces steps).idxOf i ↔ j ≠ i :=
      (List.idxOf_inj hj).not
    rw [hne]
    exact ⟨fun he => ⟨he, (hrange.mp hj).2⟩, fun he => he.1⟩
  · intro i hi k hk
    obtain ⟨-, _, t, -, ht, -⟩ := mem_dependenciesAt.mp hk
    have hlt : k < (interiorPlaces steps).length := by
      rw [length_interiorPlaces]
      exact (List.getElem?_eq_some_iff.mp ht).1
    exact ⟨_, List.getElem_mem hlt, hnodup.idxOf_getElem k hlt⟩
  · intro i hi j hj hij
    by_contra hlt
    rw [not_le] at hlt
    have hjl := List.idxOf_lt_length_of_mem hj
    have hil := List.idxOf_lt_length_of_mem hi
    have hdown := List.pairwise_iff_getElem.mp hsorted _ _ hjl hil hlt
    rw [List.getElem_idxOf, List.getElem_idxOf] at hdown
    exact absurd hij (not_le.mpr hdown)

theorem pick_interior {places : List ℕ} (h : Taken steps places) :
    pick (steps.filter RatingStep.isInterior)
      ((places.filter fun i => steps[i]?.any RatingStep.isInterior).map
        (interiorPlaces steps).idxOf) = (pick steps places).filter RatingStep.isInterior := by
  rw [pick, pick, List.filterMap_map, List.filterMap_filter, List.filter_filterMap]
  apply List.filterMap_congr
  intro i hi
  have hlt : i < steps.length := List.mem_range.mp (h.perm.mem_iff.mp hi)
  rw [List.getElem?_eq_getElem hlt, Option.any_some]
  by_cases hint : steps[i].isInterior
  · have hplace : i ∈ interiorPlaces steps := by
      simp [interiorPlaces, hlt, hint]
    rw [Function.comp_apply, getElem?_idxOf_interiorPlaces hplace, List.getElem?_eq_getElem hlt]
    simp [hint, Option.filter]
  · simp [hint, Option.filter]

end Places

/-! ## The ids of the interior steps -/

section Ids

variable {graph : Dict RatingStep} {inner : List RatingStep}

open DependencyOrder

/-- The sort by ids does to the ids of some steps what the sort of the steps does. -/
theorem dependencyOrderIds_eq (hn : (inner.map RatingStep.stepId).Nodup)
    (hg : ∀ s ∈ inner, graph.get? s.stepId = some s) :
    dependencyOrderIds graph (inner.map RatingStep.stepId) =
      (dependencyOrder inner).map (List.map RatingStep.stepId) := by
  have w := wellFormedAt inner
  let idAt (i : ℕ) : String := (inner[i]?.map RatingStep.stepId).getD ""
  have hid : ∀ {i} (hi : i < inner.length), idAt i = inner[i].stepId := fun hi => by
    simp only [idAt, List.getElem?_eq_getElem hi, Option.map_some, Option.getD_some]
  have hids : (List.range inner.length).map idAt = inner.map RatingStep.stepId := by
    apply List.ext_getElem
    · simp
    · intro i hi _
      have hlt : i < inner.length := by simpa using hi
      rw [List.getElem_map, List.getElem_range, List.getElem_map, hid hlt]
  have hposition : ∀ {i}, i < inner.length → position (inner.map RatingStep.stepId) (idAt i) = i := by
    intro i hi
    have hlt : i < (inner.map RatingStep.stepId).length := by simpa using hi
    have hget : (inner.map RatingStep.stepId)[i] = idAt i := by rw [List.getElem_map, hid hi]
    rw [← hget]
    exact hn.idxOf_getElem i hlt
  have hmem : ∀ {i j}, i < inner.length → j < inner.length →
      (idAt j ∈ needs graph (inner.map RatingStep.stepId) (idAt i) ↔ j ∈ dependenciesAt inner i) := by
    intro i j hi hj
    have hreads : consumes graph (idAt i) = inner[i].consumes := by
      rw [consumes, hid hi, hg _ (List.getElem_mem hi)]
      rfl
    have hwrites : produces graph (idAt j) = inner[j].produces := by
      rw [produces, hid hj, hg _ (List.getElem_mem hj)]
      rfl
    have hne : idAt j ≠ idAt i ↔ j ≠ i := by
      constructor
      · rintro h rfl
        exact h rfl
      · intro h he
        apply h
        rw [← hposition hj, he, hposition hi]
    have hmemj : idAt j ∈ inner.map RatingStep.stepId := by
      rw [hid hj]
      exact List.mem_map_of_mem (List.getElem_mem hj)
    rw [mem_needs, mem_dependenciesAt, hreads, hwrites, hne]
    simp [hi, hj, hmemj]
  have himage : ∀ {i}, ∀ y ∈ needs graph (inner.map RatingStep.stepId) (idAt i),
      ∃ j ∈ List.range inner.length, idAt j = y := by
    intro i y hy
    have hy := (mem_needs.mp hy).1
    rw [← hids] at hy
    obtain ⟨j, hj, rfl⟩ := List.mem_map.mp hy
    exact ⟨j, hj, rfl⟩
  rw [dependencyOrderIds, order_eq, List.length_map]
  by_cases hcycle : HasCycle inner
  · rw [dependencyOrder_cycle hcycle, if_pos]
    · rfl
    · intro hlen
      have hacyclic := (Kahn.length_order_iff (wellFormed hn)).mp (by rwa [List.length_map])
      refine acyclic_iff_not_hasCycle.mp ?_ hcycle
      obtain ⟨rank, hrank⟩ := hacyclic
      refine ⟨fun i => rank (idAt i), fun i hi j hj => ?_⟩
      have hj' := w.deps_mem i hi j hj
      rw [List.mem_range] at hi hj'
      refine hrank (idAt i) ?_ (idAt j) ((hmem hi hj').mpr hj)
      rw [hid hi]
      exact List.mem_map_of_mem (List.getElem_mem hi)
  · have hstable := taken_order hcycle
    have hmapped : Kahn.Stable (position (inner.map RatingStep.stepId))
        (needs graph (inner.map RatingStep.stepId)) ((List.range inner.length).map idAt) _ :=
      hstable.map (fun i hi j hj he => by
        rw [← hposition (List.mem_range.mp hi), he, hposition (List.mem_range.mp hj)])
      w.deps_mem
      (fun i hi j hj => hmem (List.mem_range.mp hi) (List.mem_range.mp hj))
      (fun i _ => himage)
      (fun i hi j hj hij => by
        rw [hposition (List.mem_range.mp hi), hposition (List.mem_range.mp hj)]
        exact hij)
    rw [hids] at hmapped
    have horder := Kahn.order_eq_of_stable (wellFormed hn)
      (fun a ha b _ he => position_injOn ha he) hmapped
    rw [horder, dependencyOrder_taken hstable, if_neg]
    · simp only [Except.map, Except.ok.injEq, pick]
      rw [List.map_filterMap, ← List.filterMap_eq_map]
      apply List.filterMap_congr
      intro i hi
      have hlt := List.mem_range.mp (hstable.perm.mem_iff.mp hi)
      simp [idAt, hlt]
    · rw [List.length_map, hstable.perm.length_eq, List.length_range]
      exact fun h => h rfl

def interiorSteps (graph : Dict RatingStep) : List RatingStep :=
  (graph.entries.filter fun node => node.2.isInterior).map Prod.snd

/-- Every node of a graph is under its own id. -/
def Keyed (graph : Dict RatingStep) : Prop := ∀ node ∈ graph.entries, node.2.stepId = node.1

theorem keyed_insert (h : Keyed graph) (s : RatingStep) : Keyed (graph.insert s.stepId s) := by
  intro node hnode
  unfold Dict.insert at hnode
  split_ifs at hnode
  · obtain ⟨e, he, rfl⟩ := List.mem_map.mp hnode
    dsimp only
    split_ifs with hk
    · exact hk.symm
    · exact h e he
  · obtain he | he := List.mem_append.mp hnode
    · exact h node he
    · rw [List.mem_singleton.mp he]

theorem keyed_toJdm (steps : List RatingStep) : Keyed (toJdm steps) := by
  have hfold : ∀ (l : List RatingStep) (g : Dict RatingStep), Keyed g →
      Keyed (l.foldl (fun nodes s => nodes.insert s.stepId s) g) := by
    intro l
    induction l with
    | nil => exact fun _ h => h
    | cons s l ih => exact fun g h => ih _ (keyed_insert h s)
  exact hfold steps .empty (by simp [Keyed, Dict.empty])

theorem interiorIds_eq (h : Keyed graph) :
    interiorIds graph = (interiorSteps graph).map RatingStep.stepId := by
  rw [interiorIds, interiorSteps, List.map_map]
  apply List.map_congr_left
  intro node hnode
  exact (h node (List.mem_filter.mp hnode).1).symm

theorem dependencyOrderIds_interior (h : Keyed graph) :
    dependencyOrderIds graph (interiorIds graph) =
      (dependencyOrder (interiorSteps graph)).map (List.map RatingStep.stepId) := by
  rw [interiorIds_eq h]
  apply dependencyOrderIds_eq
  · rw [← interiorIds_eq h]
    exact graph.nodup.sublist (List.filter_sublist.map _)
  · intro s hs
    obtain ⟨node, hnode, rfl⟩ := List.mem_map.mp hs
    have hmem := (List.mem_filter.mp hnode).1
    rw [Dict.get?_eq_some, h node hmem]
    exact hmem

theorem interiorSteps_toJdm {steps : List RatingStep} (hn : (steps.map RatingStep.stepId).Nodup) :
    interiorSteps (toJdm steps) = steps.filter RatingStep.isInterior := by
  have hentries : (toJdm steps).entries = steps.map fun s => (s.stepId, s) := by
    have hfold := Factors.entries_foldl_insert (steps.map fun s => (s.stepId, s)) .empty
      (by simpa [Dict.empty, Dict.keys, Function.comp_def] using hn)
    rw [List.foldl_map] at hfold
    simpa [toJdm, Dict.empty] using hfold
  rw [interiorSteps, hentries, List.filter_map, List.map_map]
  simp [Function.comp_def]

end Ids

/-! ## Both sorts -/

/-- A stable topological order of the places of a list. -/
structure SortOf (steps : List RatingStep) (places : List ℕ) : Prop where
  perm : places.Perm (List.range steps.length)
  after : ∀ i, ∀ j ∈ dependenciesAt steps i, places.idxOf j < places.idxOf i
  inPlace : ∀ i j k s t u x, steps[i]? = some s → steps[j]? = some t → steps[k]? = some u →
    i ≠ j → k ≠ j → x ∈ s.produces → x ∈ t.consumes → x ∈ t.produces → x ∈ u.consumes →
    places.idxOf i < places.idxOf j ∧ places.idxOf j < places.idxOf k
  first : ∀ before i after, places = before ++ i :: after → ∀ j < steps.length, j ∉ before →
    (∀ k ∈ dependenciesAt steps j, k ∈ before) → i ≤ j

/-- What the two sorts make of a list of steps. -/
structure Sorts (steps : List RatingStep) : Prop where
  inlined : ¬ HasCycle steps →
    ∃ places, SortOf steps places ∧ stableTopological steps = pick steps places
  inlinedKept : Ordered steps → stableTopological steps = steps
  inlinedCycle : HasCycle steps → stableTopological steps = steps
  wired : ¬ HasCycle (interiorSteps (toJdm steps)) →
    ∃ places, SortOf (interiorSteps (toJdm steps)) places ∧
      dependencyOrderIds (toJdm steps) (interiorIds (toJdm steps)) =
        .ok ((pick (interiorSteps (toJdm steps)) places).map RatingStep.stepId)
  wiredKept : Ordered (interiorSteps (toJdm steps)) →
    dependencyOrderIds (toJdm steps) (interiorIds (toJdm steps)) = .ok (interiorIds (toJdm steps))
  wiredCycle : HasCycle (interiorSteps (toJdm steps)) →
    dependencyOrderIds (toJdm steps) (interiorIds (toJdm steps)) = .error .graphCycle
  /-- On the same steps the two agree. -/
  same : ¬ HasCycle (interiorSteps (toJdm steps)) →
    dependencyOrderIds (toJdm steps) (interiorIds (toJdm steps)) =
      .ok ((stableTopological (interiorSteps (toJdm steps))).map RatingStep.stepId)
  /-- The wire keeps the interior steps in the order that inlining put them in. -/
  settled : (steps.map RatingStep.stepId).Nodup → ¬ HasCycle steps →
    dependencyOrderIds (toJdm (stableTopological steps))
        (interiorIds (toJdm (stableTopological steps))) =
      .ok (((stableTopological steps).filter RatingStep.isInterior).map RatingStep.stepId)
  /-- So it does where the steps are not inlined, if what they read from stands before them. -/
  agree : (steps.map RatingStep.stepId).Nodup → ¬ HasCycle steps → InputsFirst steps →
    dependencyOrderIds (toJdm steps) (interiorIds (toJdm steps)) =
      .ok (((stableTopological steps).filter RatingStep.isInterior).map RatingStep.stepId)

section Both

variable {steps : List RatingStep}

theorem Kahn.Stable.sortOf {places : List ℕ} (h : Taken steps places) : SortOf steps places := by
  have hn := h.nodup List.nodup_range
  have hafter : ∀ i, ∀ j ∈ dependenciesAt steps i, places.idxOf j < places.idxOf i := by
    intro i j hj
    obtain ⟨-, s, -, hs, -⟩ := mem_dependenciesAt.mp hj
    refine h.topological.before hn (h.perm.mem_iff.mpr (List.mem_range.mpr ?_)) hj
    exact (List.getElem?_eq_some_iff.mp hs).1
  refine ⟨h.perm, hafter, ?_, ?_⟩
  · intro i j k s t u x hs ht hu hij hkj hsx htx htx' hux
    exact ⟨hafter j i (mem_dependenciesAt.mpr ⟨hij, t, s, ht, hs, x, htx, hsx⟩),
      hafter k j (mem_dependenciesAt.mpr ⟨hkj.symm, u, t, hu, ht, x, hux, htx'⟩)⟩
  · intro before i after hl j hj hjb hdeps
    exact h.takesLeast before i after hl j ⟨List.mem_range.mpr hj, hjb, hdeps⟩

/-- Both sorts give a stable topological order of the steps they are given, keep an ordered list, and
refuse or keep a list with a cycle. They agree on the same steps, and the wire keeps the order of the
inlined steps. -/
theorem sorts (steps : List RatingStep) : Sorts steps := by
  have hids := dependencyOrderIds_interior (keyed_toJdm steps)
  refine ⟨?_, stableTopological_ordered, stableTopological_cycle, ?_, ?_, ?_, ?_, ?_, ?_⟩
  · intro h
    obtain ⟨places, hplaces, heq⟩ := stableTopological_taken h
    exact ⟨places, hplaces.sortOf, heq⟩
  · intro h
    obtain ⟨places, hplaces, -⟩ := stableTopological_taken h
    rw [hids, dependencyOrder_taken hplaces]
    exact ⟨places, hplaces.sortOf, rfl⟩
  · intro h
    rw [hids, dependencyOrder_taken (taken_range h), pick, filterMap_range,
      interiorIds_eq (keyed_toJdm steps)]
    rfl
  · intro h
    rw [hids, dependencyOrder_cycle h]
    rfl
  · intro h
    obtain ⟨places, hplaces, heq⟩ := stableTopological_taken h
    rw [hids, dependencyOrder_taken hplaces, heq]
    rfl
  · intro hn h
    obtain ⟨places, hplaces, heq⟩ := stableTopological_taken h
    have hordered : Ordered ((stableTopological steps).filter RatingStep.isInterior) := by
      rw [heq]
      exact (ordered_pick hplaces).filter _
    have hn' : ((stableTopological steps).map RatingStep.stepId).Nodup :=
      ((stableTopological_perm steps).map _).nodup_iff.mpr hn
    rw [dependencyOrderIds_interior (keyed_toJdm _), interiorSteps_toJdm hn',
      dependencyOrder_taken (taken_range hordered), pick, filterMap_range]
    rfl
  · intro hn h hfirst
    obtain ⟨places, hplaces, heq⟩ := stableTopological_taken h
    rw [hids, interiorSteps_toJdm hn, dependencyOrder_taken (taken_interior hfirst hplaces),
      pick_interior hplaces, heq]
    rfl

/-- An input that is listed after the step that reads it. -/
def lateInput : List RatingStep := [
  ⟨"rated", ["age"], ["rate"], .expression "age" "decimal", "rated", none⟩,
  ⟨"base", [], ["base"], .expression "1" "decimal", "base", none⟩,
  ⟨"age", [], ["age"], .input "age" .error, "age", none⟩]

/-- An input that stands after its reader holds the reader back in one of the sorts only. -/
theorem lateInput_differs : ¬ HasCycle lateInput ∧
    ((stableTopological lateInput).filter RatingStep.isInterior).map RatingStep.stepId =
      ["base", "rated"] ∧
    dependencyOrderIds (toJdm lateInput) (interiorIds (toJdm lateInput)) =
      .ok ["rated", "base"] := by
  refine ⟨?_, ?_, ?_⟩
  · rw [← acyclic_iff_not_hasCycle]
    exact ⟨fun i => if i = 0 then 1 else 0, by decide⟩
  · decide
  · decide

end Both

end GiPricing
