import GiPricing.Rating.Invariants

/-! # Accepted graphs

A graph passes the checks exactly when its step ids are distinct, every consumed name has a
producer, the dependencies admit a rank, and no name has two producers that do not consume it.
-/

namespace GiPricing.Graph

variable {nodes : List GraphNode} {n m : GraphNode} {sid p name : String}

theorem mem_listedBy {names : GraphNode → List String} :
    p ∈ listedBy nodes names name ↔ ∃ n ∈ nodes, n.stepId = p ∧ name ∈ names n := by
  simp only [listedBy, List.mem_flatMap, List.mem_filterMap, Option.ite_none_right_eq_some,
    Option.some.injEq]
  constructor
  · rintro ⟨n, hn, _, hm, rfl, rfl⟩; exact ⟨n, hn, rfl, hm⟩
  · rintro ⟨n, hn, rfl, hm⟩; exact ⟨n, hn, name, hm, rfl, rfl⟩

theorem mem_producedBy :
    p ∈ producedBy nodes name ↔ ∃ n ∈ nodes, n.stepId = p ∧ name ∈ n.produces := mem_listedBy

theorem mem_consumedBy :
    p ∈ consumedBy nodes name ↔ ∃ n ∈ nodes, n.stepId = p ∧ name ∈ n.consumes := mem_listedBy

theorem producedBy_eq_nil :
    producedBy nodes name = [] ↔ ∀ n ∈ nodes, name ∉ n.produces := by
  rw [List.eq_nil_iff_forall_not_mem]
  constructor
  · exact fun h n hn hm => h n.stepId (mem_producedBy.mpr ⟨n, hn, rfl, hm⟩)
  · rintro h p hp
    obtain ⟨n, hn, _, hm⟩ := mem_producedBy.mp hp
    exact h n hn hm

theorem eq_of_stepId (hu : (ids nodes).Nodup) (hn : n ∈ nodes) (hm : m ∈ nodes)
    (h : n.stepId = m.stepId) : n = m :=
  List.inj_on_of_nodup_map hu hn hm h

theorem byId_of_mem (hu : (ids nodes).Nodup) (hn : n ∈ nodes) : byId nodes n.stepId = some n := by
  obtain ⟨m, hm⟩ := Option.isSome_iff_exists.mp
    (List.find?_isSome.mpr ⟨n, hn, by simp⟩ : (byId nodes n.stepId).isSome)
  have hid : m.stepId = n.stepId := by simpa using List.find?_some hm
  rw [eq_of_stepId hu (List.mem_of_find?_eq_some hm) hn hid] at hm
  exact hm

theorem byId_eq_some (h : byId nodes sid = some n) : n ∈ nodes ∧ n.stepId = sid :=
  ⟨List.mem_of_find?_eq_some h, by simpa using List.find?_some h⟩

theorem mem_nodeDependencies :
    p ∈ nodeDependencies nodes n ↔
      p ≠ n.stepId ∧ ∃ m ∈ nodes, m.stepId = p ∧ ∃ x ∈ n.consumes, x ∈ m.produces := by
  simp only [nodeDependencies, List.mem_dedup, List.mem_filter, List.mem_flatMap, mem_producedBy,
    decide_eq_true_eq]
  constructor
  · rintro ⟨⟨x, hx, m, hm, rfl, hp⟩, hne⟩; exact ⟨hne, m, hm, rfl, x, hx, hp⟩
  · rintro ⟨hne, m, hm, rfl, x, hx, hp⟩; exact ⟨⟨x, hx, m, hm, rfl, hp⟩, hne⟩

theorem dependencies_of_mem (hu : (ids nodes).Nodup) (hn : n ∈ nodes) :
    dependencies nodes n.stepId = nodeDependencies nodes n := by
  simp [dependencies, byId_of_mem hu hn]

theorem mem_dependencies (hu : (ids nodes).Nodup) (hn : n ∈ nodes) (hm : m ∈ nodes) :
    m.stepId ∈ dependencies nodes n.stepId ↔
      m.stepId ≠ n.stepId ∧ ∃ x ∈ n.consumes, x ∈ m.produces := by
  rw [dependencies_of_mem hu hn, mem_nodeDependencies]
  refine and_congr_right fun _ => ⟨?_, fun h => ⟨m, hm, rfl, h⟩⟩
  rintro ⟨m', hm', hid, h⟩
  rwa [eq_of_stepId hu hm' hm hid] at h

/-- The dependencies are duplicate-free sets of other nodes. -/
theorem wellFormed (hu : (ids nodes).Nodup) : Kahn.WellFormed (dependencies nodes) (ids nodes) where
  nodup := hu
  deps_nodup a := by
    unfold dependencies
    cases byId nodes a with
    | none => exact List.nodup_nil
    | some n => exact List.nodup_dedup _
  deps_mem a _ b hb := by
    unfold dependencies at hb
    cases h : byId nodes a with
    | none => simp [h] at hb
    | some n =>
      simp only [h, Option.map_some, Option.getD_some, mem_nodeDependencies] at hb
      obtain ⟨_, m, hm, rfl, _⟩ := hb
      exact List.mem_map.mpr ⟨m, hm, rfl⟩
  irrefl a ha := by
    unfold dependencies at ha
    cases h : byId nodes a with
    | none => simp [h] at ha
    | some n =>
      simp only [h, Option.map_some, Option.getD_some, mem_nodeDependencies] at ha
      exact ha.1 (byId_eq_some h).2.symm

theorem hasCycle_eq_false (hu : (ids nodes).Nodup) :
    hasCycle nodes = false ↔ Kahn.Acyclic (dependencies nodes) (ids nodes) := by
  rw [← Kahn.length_order_iff (d := Kahn.lifo) (wellFormed hu)]
  unfold hasCycle
  rw [decide_eq_false_iff_not, ne_eq, not_not, order, ids, List.length_map]

theorem undefinedIssues_eq_nil {purposeOnly : String → List MountPurpose} :
    undefinedIssues nodes purposeOnly = [] ↔
      ∀ n ∈ nodes, ∀ x ∈ n.consumes, ∃ m ∈ nodes, x ∈ m.produces := by
  simp only [undefinedIssues, List.flatMap_eq_nil_iff, List.filterMap_eq_nil_iff,
    ite_eq_right_iff, reduceCtorEq, imp_false, List.isEmpty_iff, producedBy_eq_nil, not_forall,
    not_not, exists_prop]

theorem cycleIssues_eq_nil (hu : (ids nodes).Nodup) :
    cycleIssues nodes = [] ↔ Kahn.Acyclic (dependencies nodes) (ids nodes) := by
  have w := wellFormed hu
  rw [← hasCycle_eq_false hu]
  constructor
  swap
  · intro h; simp [cycleIssues, h]
  intro h
  by_contra hc
  rw [Bool.not_eq_false] at hc
  simp only [cycleIssues, hc, if_true, List.map_eq_nil_iff, List.filter_eq_nil_iff] at h
  have hfree : ∀ a ∈ ids nodes, a ∉ order nodes →
      ¬ Relation.TransGen (fun x y => y ∈ dependencies nodes x) a a := by
    intro a ha ho ht
    obtain ⟨n, hn, rfl⟩ := List.mem_map.mp ha
    refine h n hn ?_
    obtain ⟨b, hb, hr⟩ := Relation.TransGen.head'_iff.mp ht
    have hm := (Reach.mem_reach hu w.deps_mem (w.deps_mem _ ha)).mpr ⟨b, hb, hr⟩
    simp [ho, liesOnCycle, hm]
  have hacyclic := Kahn.acyclic_of_irrefl w (d := Kahn.lifo) hfree
  rw [(hasCycle_eq_false hu).mpr hacyclic] at hc
  cases hc

theorem consumesName_iff (hu : (ids nodes).Nodup) (hn : n ∈ nodes) :
    consumesName nodes n.stepId name = true ↔ name ∈ n.consumes := by
  simp [consumesName, byId_of_mem hu hn]

theorem mem_producedNames : name ∈ producedNames nodes ↔ ∃ n ∈ nodes, name ∈ n.produces := by
  simp [producedNames]

theorem before_of_mem_dependencies (hu : (ids nodes).Nodup)
    (ha : Kahn.Acyclic (dependencies nodes) (ids nodes)) (hs : sid ∈ ids nodes)
    (hp : p ∈ dependencies nodes sid) : (order nodes).idxOf p < (order nodes).idxOf sid :=
  (Kahn.order_topological (wellFormed hu)).before (Kahn.order_nodup (wellFormed hu))
    (Kahn.order_complete (wellFormed hu) ha hs) hp

/-- Among the producers of a name only one may fail to consume it. -/
theorem chainIssues_eq_nil (hu : (ids nodes).Nodup)
    (ha : Kahn.Acyclic (dependencies nodes) (ids nodes)) :
    chainIssues nodes = [] ↔
      ∀ x, ((producedBy nodes x).filter fun p => !consumesName nodes p x).length ≤ 1 := by
  let le (a b : String) : Prop := (order nodes).idxOf a ≤ (order nodes).idxOf b
  have : Std.Total le := ⟨fun a b => Nat.le_total _ _⟩
  have : IsTrans String le := ⟨fun a b c => Nat.le_trans⟩
  have hc : chainIssues nodes = [] ↔ ∀ x ∈ producedNames nodes,
      ∀ p ∈ rechained nodes x, consumesName nodes p x = true := by
    simp [chainIssues, (hasCycle_eq_false hu).mpr ha]
  rw [hc]
  constructor
  · intro h x
    have hperm := List.perm_insertionSort le (producedBy nodes x)
    rw [← (hperm.filter _).length_eq]
    cases hs : (producedBy nodes x).insertionSort le with
    | nil => simp
    | cons a t =>
      have ht : t.filter (fun p => !consumesName nodes p x) = [] := by
        rw [List.filter_eq_nil_iff]
        intro p hp
        have hpx : p ∈ producedBy nodes x :=
          hperm.subset (hs ▸ List.mem_cons_of_mem a hp)
        obtain ⟨n, hn, _, hx⟩ := mem_producedBy.mp hpx
        have hpr : p ∈ rechained nodes x := by
          have : rechained nodes x = t := congrArg List.tail hs
          rwa [this]
        simp [h x (mem_producedNames.mpr ⟨n, hn, hx⟩) p hpr]
      rw [List.filter_cons, ht]
      split <;> simp
  · intro h x _ p hp
    have hperm := List.perm_insertionSort le (producedBy nodes x)
    have hsort := List.pairwise_insertionSort le (producedBy nodes x)
    have hl := h x
    rw [← (hperm.filter _).length_eq] at hl
    have hr : rechained nodes x = ((producedBy nodes x).insertionSort le).tail := rfl
    cases hs : (producedBy nodes x).insertionSort le with
    | nil => rw [hr, hs] at hp; simp at hp
    | cons a t =>
      rw [hr, hs, List.tail_cons] at hp
      rw [hs] at hl hsort
      by_contra hpc
      rw [Bool.not_eq_true] at hpc
      have hpt : p ∈ t.filter fun p => !consumesName nodes p x :=
        List.mem_filter.mpr ⟨hp, by simp [hpc]⟩
      have hpos := List.length_pos_of_mem hpt
      cases hac : consumesName nodes a x with
      | false => simp only [List.filter_cons, hac, Bool.not_false, if_true, List.length_cons] at hl; omega
      | true =>
        obtain ⟨n, hn, rfl, _⟩ := mem_producedBy.mp
          (hperm.subset (hs ▸ List.mem_cons_self) : a ∈ producedBy nodes x)
        obtain ⟨m, hm, rfl, hmx⟩ := mem_producedBy.mp
          (hperm.subset (hs ▸ List.mem_cons_of_mem _ hp) : p ∈ producedBy nodes x)
        have hne : m.stepId ≠ n.stepId := fun he => by rw [he, hac] at hpc; cases hpc
        have hdep := (mem_dependencies hu hn hm).mpr
          ⟨hne, x, (consumesName_iff hu hn).mp hac, hmx⟩
        have hlt := before_of_mem_dependencies hu ha (List.mem_map.mpr ⟨n, hn, rfl⟩) hdep
        have hle := (List.pairwise_cons.mp hsort).1 _ hp
        exact absurd hlt (not_lt.mpr hle)

/-- What the graph checks ask of a list of nodes. -/
structure Sound (nodes : List GraphNode) : Prop where
  ids_nodup : (ids nodes).Nodup
  resolved : ∀ n ∈ nodes, ∀ x ∈ n.consumes, ∃ m ∈ nodes, x ∈ m.produces
  acyclic : Kahn.Acyclic (dependencies nodes) (ids nodes)
  chain : ∀ x, ((producedBy nodes x).filter fun p => !consumesName nodes p x).length ≤ 1

theorem sound_iff {purposeOnly : String → List MountPurpose} (hu : (ids nodes).Nodup) :
    undefinedIssues nodes purposeOnly = [] ∧ cycleIssues nodes = [] ∧ chainIssues nodes = [] ↔
      Sound nodes := by
  rw [undefinedIssues_eq_nil, cycleIssues_eq_nil hu]
  constructor
  · rintro ⟨h, ha, hc⟩; exact ⟨hu, h, ha, (chainIssues_eq_nil hu ha).mp hc⟩
  · rintro ⟨_, h, ha, hc⟩; exact ⟨h, ha, (chainIssues_eq_nil hu ha).mpr hc⟩

theorem Sound.related (h : Sound nodes) (hn : n ∈ nodes) (hm : m ∈ nodes)
    (hne : n.stepId ≠ m.stepId) {x : String} (hx : x ∈ n.produces) (hy : x ∈ m.produces) :
    m.stepId ∈ dependencies nodes n.stepId ∨ n.stepId ∈ dependencies nodes m.stepId := by
  by_contra hc
  rw [not_or, mem_dependencies h.ids_nodup hn hm, mem_dependencies h.ids_nodup hm hn] at hc
  have hnx : x ∉ n.consumes := fun hc' => hc.1 ⟨hne.symm, x, hc', hy⟩
  have hmx : x ∉ m.consumes := fun hc' => hc.2 ⟨hne, x, hc', hx⟩
  have hmem : ∀ k ∈ nodes, x ∈ k.produces → x ∉ k.consumes →
      k.stepId ∈ (producedBy nodes x).filter fun p => !consumesName nodes p x := by
    intro k hk hkp hkc
    have hf : ¬ consumesName nodes k.stepId x = true := (consumesName_iff h.ids_nodup hk).not.mpr hkc
    exact List.mem_filter.mpr ⟨mem_producedBy.mpr ⟨k, hk, rfl, hkp⟩, by simpa using hf⟩
  have hp : [n.stepId, m.stepId].Subperm
      ((producedBy nodes x).filter fun p => !consumesName nodes p x) := by
    refine List.Nodup.subperm (by simp [hne]) fun k hk => ?_
    rcases List.mem_pair.mp hk with rfl | rfl
    · exact hmem n hn hx hnx
    · exact hmem m hm hy hmx
  exact absurd (hp.length_le.trans (h.chain x)) (by simp)

section Reach

theorem mem_successors (hu : (ids nodes).Nodup) (hn : n ∈ nodes) :
    p ∈ successors nodes n.stepId ↔
      ∃ x ∈ n.produces, ∃ m ∈ nodes, m.stepId = p ∧ x ∈ m.consumes := by
  simp [successors, byId_of_mem hu hn, mem_consumedBy]

theorem mem_predecessors (hu : (ids nodes).Nodup) (hn : n ∈ nodes) :
    p ∈ predecessors nodes n.stepId ↔
      ∃ x ∈ n.consumes, ∃ m ∈ nodes, m.stepId = p ∧ x ∈ m.produces := by
  simp [predecessors, byId_of_mem hu hn, mem_producedBy]

theorem successors_mem {a b : String} (h : b ∈ successors nodes a) : b ∈ ids nodes := by
  unfold successors at h
  cases hb : byId nodes a with
  | none => simp [hb] at h
  | some n =>
    simp only [hb, Option.map_some, Option.getD_some, List.mem_flatMap, mem_consumedBy] at h
    obtain ⟨_, _, m, hm, rfl, _⟩ := h
    exact List.mem_map.mpr ⟨m, hm, rfl⟩

theorem predecessors_mem {a b : String} (h : b ∈ predecessors nodes a) : b ∈ ids nodes := by
  unfold predecessors at h
  cases hb : byId nodes a with
  | none => simp [hb] at h
  | some n =>
    simp only [hb, Option.map_some, Option.getD_some, List.mem_flatMap, mem_producedBy] at h
    obtain ⟨_, _, m, hm, rfl, _⟩ := h
    exact List.mem_map.mpr ⟨m, hm, rfl⟩

theorem mem_reachable (hu : (ids nodes).Nodup) {start : List String}
    (hs : ∀ a ∈ start, a ∈ ids nodes) :
    p ∈ reachable nodes start ↔ Reach.Reaches (successors nodes) start p :=
  Reach.mem_reach hu (fun _ _ _ hb => successors_mem hb) hs

theorem mem_reachesOutput (hu : (ids nodes).Nodup) {start : List String}
    (hs : ∀ a ∈ start, a ∈ ids nodes) :
    p ∈ reachesOutput nodes start ↔ Reach.Reaches (predecessors nodes) start p :=
  Reach.mem_reach hu (fun _ _ _ hb => predecessors_mem hb) hs

end Reach

section Perm

variable {nodes' : List GraphNode}

theorem consumesName_perm (hu : (ids nodes).Nodup) (hp : nodes.Perm nodes') {sid : String}
    (hs : sid ∈ ids nodes) : consumesName nodes sid name = consumesName nodes' sid name := by
  have hu' : (ids nodes').Nodup := (hp.map _).nodup_iff.mp hu
  obtain ⟨n, hn, rfl⟩ := List.mem_map.mp hs
  rw [Bool.eq_iff_iff, consumesName_iff hu hn, consumesName_iff hu' (hp.subset hn)]

theorem mem_dependencies_perm (hu : (ids nodes).Nodup) (hp : nodes.Perm nodes') {a b : String}
    (ha : a ∈ ids nodes) : b ∈ dependencies nodes a ↔ b ∈ dependencies nodes' a := by
  have hu' : (ids nodes').Nodup := (hp.map _).nodup_iff.mp hu
  obtain ⟨n, hn, rfl⟩ := List.mem_map.mp ha
  rw [dependencies_of_mem hu hn, dependencies_of_mem hu' (hp.subset hn), mem_nodeDependencies,
    mem_nodeDependencies]
  simp only [hp.mem_iff]

theorem byId_isNone {a : String} (h : a ∉ ids nodes) : byId nodes a = none := by
  cases hb : byId nodes a with
  | none => rfl
  | some n => exact absurd (List.mem_map.mpr ⟨n, byId_eq_some hb⟩) h

theorem mem_successors_perm (hu : (ids nodes).Nodup) (hp : nodes.Perm nodes') {a b : String} :
    b ∈ successors nodes a ↔ b ∈ successors nodes' a := by
  have hu' : (ids nodes').Nodup := (hp.map _).nodup_iff.mp hu
  by_cases ha : a ∈ ids nodes
  · obtain ⟨n, hn, rfl⟩ := List.mem_map.mp ha
    simp only [mem_successors hu hn, mem_successors hu' (hp.subset hn), hp.mem_iff]
  · have ha' : a ∉ ids nodes' := fun h => ha ((hp.map _).mem_iff.mpr h)
    simp [successors, byId_isNone ha, byId_isNone ha']

theorem mem_predecessors_perm (hu : (ids nodes).Nodup) (hp : nodes.Perm nodes') {a b : String} :
    b ∈ predecessors nodes a ↔ b ∈ predecessors nodes' a := by
  have hu' : (ids nodes').Nodup := (hp.map _).nodup_iff.mp hu
  by_cases ha : a ∈ ids nodes
  · obtain ⟨n, hn, rfl⟩ := List.mem_map.mp ha
    simp only [mem_predecessors hu hn, mem_predecessors hu' (hp.subset hn), hp.mem_iff]
  · have ha' : a ∉ ids nodes' := fun h => ha ((hp.map _).mem_iff.mpr h)
    simp [predecessors, byId_isNone ha, byId_isNone ha']

theorem Sound.perm (h : Sound nodes) (hp : nodes.Perm nodes') : Sound nodes' where
  ids_nodup := (hp.map _).nodup_iff.mp h.ids_nodup
  resolved n hn x hx := by
    obtain ⟨m, hm, hmx⟩ := h.resolved n (hp.mem_iff.mpr hn) x hx
    exact ⟨m, hp.subset hm, hmx⟩
  acyclic := by
    obtain ⟨rank, hr⟩ := h.acyclic
    refine ⟨rank, fun a ha b hb => ?_⟩
    have ha' : a ∈ ids nodes := (hp.map _).mem_iff.mpr ha
    exact hr a ha' b ((mem_dependencies_perm h.ids_nodup hp ha').mpr hb)
  chain x := by
    have hb : (producedBy nodes x).Perm (producedBy nodes' x) := hp.flatMap_right _
    rw [← (hb.filter _).length_eq]
    convert h.chain x using 2
    refine List.filter_congr fun p hp' => ?_
    obtain ⟨n, hn, rfl, _⟩ := mem_producedBy.mp hp'
    rw [consumesName_perm h.ids_nodup hp (List.mem_map.mpr ⟨n, hn, rfl⟩)]

end Perm

end GiPricing.Graph

namespace GiPricing

open GiPricing.Graph

variable {draft : RatingAlgorithmDraft} {mounts : List GraphNode} {purposeMounts : List String}

/-- What one purpose's pass asks of the steps and the selected mounts. -/
structure PassOk (draft : RatingAlgorithmDraft) (mounts : List GraphNode)
    (purposeMounts : List String) : Prop where
  outputs : ∀ o ∈ draft.outputs, ∃ s ∈ draft.steps, s.outputName? = some o.name
  sound : Sound (draft.nodesWith mounts)
  connected : ∀ s ∈ draft.steps,
    Reach.Reaches (successors (draft.nodesWith mounts)) (inputIds draft.steps) s.stepId ∨
      Reach.Reaches (predecessors (draft.nodesWith mounts)) (outputIds draft.steps) s.stepId
  one_risk_price : ∀ m ∈ mounts, m.stepId ∈ purposeMounts → ∀ s ∈ draft.steps,
    s.outputName? = some riskPremiumOutput →
      ¬ Reach.Reaches (successors (draft.nodesWith mounts)) [m.stepId] s.stepId

theorem mem_ids_left {s : RatingStep} (hs : s ∈ draft.steps) (mounts : List GraphNode) :
    s.stepId ∈ ids (draft.nodesWith mounts) :=
  List.mem_map.mpr ⟨s.node, List.mem_append_left _ (List.mem_map_of_mem hs), rfl⟩

theorem graphPassIssues_eq_nil {purposeOnly : String → List MountPurpose}
    (hu : (ids (draft.nodesWith mounts)).Nodup) :
    graphPassIssues draft mounts purposeMounts purposeOnly = [] ↔
      PassOk draft mounts purposeMounts := by
  have hin : ∀ a ∈ inputIds draft.steps, a ∈ ids (draft.nodesWith mounts) := by
    intro a ha
    obtain ⟨s, hs, rfl⟩ := List.mem_map.mp ha
    exact mem_ids_left (List.mem_filter.mp hs).1 mounts
  have hout : ∀ a ∈ outputIds draft.steps,
      a ∈ ids (draft.nodesWith mounts) := by
    intro a ha
    obtain ⟨s, hs, rfl⟩ := List.mem_map.mp ha
    exact mem_ids_left (List.mem_filter.mp hs).1 mounts
  have hm : ∀ m ∈ mounts, ∀ a ∈ [m.stepId],
      a ∈ ids (draft.nodesWith mounts) := by
    intro m hm a ha
    obtain rfl := List.mem_singleton.mp ha
    exact List.mem_map.mpr ⟨m, List.mem_append_right _ hm, rfl⟩
  have hpass : graphPassIssues draft mounts purposeMounts purposeOnly = [] ↔
      (∀ o ∈ draft.outputs, ∃ s ∈ draft.steps, s.outputName? = some o.name) ∧
      (undefinedIssues (draft.nodesWith mounts) purposeOnly = [] ∧
        cycleIssues (draft.nodesWith mounts) = [] ∧
        chainIssues (draft.nodesWith mounts) = []) ∧
      orphanIssues draft.steps (draft.nodesWith mounts) = [] ∧
      riskPriceIssues draft.steps (draft.nodesWith mounts) mounts
        purposeMounts = [] := by
    simp [graphPassIssues, and_assoc]
  have horphan : orphanIssues draft.steps (draft.nodesWith mounts) = [] ↔
      ∀ s ∈ draft.steps,
        Reach.Reaches (successors (draft.nodesWith mounts)) (inputIds draft.steps) s.stepId ∨
          Reach.Reaches (predecessors (draft.nodesWith mounts)) (outputIds draft.steps) s.stepId := by
    simp only [orphanIssues, List.map_eq_nil_iff, List.filter_eq_nil_iff, Bool.and_eq_true,
      Bool.not_eq_true', List.contains_eq_mem, decide_eq_false_iff_not, mem_reachable hu hin,
      mem_reachesOutput hu hout, not_and_or, not_not]
  have hrisk : riskPriceIssues draft.steps (draft.nodesWith mounts) mounts
        purposeMounts = [] ↔
      ∀ m ∈ mounts, m.stepId ∈ purposeMounts → ∀ s ∈ draft.steps,
        s.outputName? = some riskPremiumOutput →
          ¬ Reach.Reaches (successors (draft.nodesWith mounts)) [m.stepId] s.stepId := by
    simp only [riskPriceIssues, List.map_eq_nil_iff, List.filter_eq_nil_iff, Bool.and_eq_true,
      List.contains_eq_mem, decide_eq_true_eq, List.any_eq_true, not_and, not_exists,
      List.mem_map, List.mem_filter]
    constructor
    · intro h m hm' hp s hs ho hr
      exact h m hm' hp _ ⟨s, ⟨hs, ho⟩, rfl⟩ ((mem_reachable hu (hm m hm')).mpr hr)
    · rintro h m hm' hp _ ⟨s, ⟨hs, ho⟩, rfl⟩ hr
      exact h m hm' hp s hs ho ((mem_reachable hu (hm m hm')).mp hr)
  rw [hpass, sound_iff hu, horphan, hrisk]
  exact ⟨fun ⟨a, b, c, d⟩ => ⟨a, b, c, d⟩, fun ⟨a, b, c, d⟩ => ⟨a, b, c, d⟩⟩

/-- What saving asks of an algorithm. -/
structure Accepted (draft : RatingAlgorithmDraft) : Prop where
  ids_nodup : (draft.steps.map RatingStep.stepId ++ draft.subGraphs.map SubGraphRef.mountPoint).Nodup
  inputs_named : ∀ m ∈ draft.subGraphs, ∀ e ∈ m.inputs.entries, isBlank e.2 = false
  outputs_named : ∀ m ∈ draft.subGraphs, ∀ e ∈ m.outputs.entries, isBlank e.2 = false
  pass : ∀ purpose, PassOk draft (draft.mountsFor purpose) draft.purposeMounts

theorem stepIdIssues_eq_nil :
    draft.stepIdIssues = [] ↔ (draft.steps.map RatingStep.stepId).Nodup := by
  simp only [RatingAlgorithmDraft.stepIdIssues, List.map_eq_nil_iff, List.filter_eq_nil_iff]
  generalize draft.steps.map RatingStep.stepId = l
  constructor
  · intro h
    refine List.nodup_iff_injective_get.mpr fun i j hij => ?_
    by_contra hne
    wlog hlt : i < j generalizing i j
    · exact this j i hij.symm (Ne.symm hne) (lt_of_le_of_ne (not_lt.mp hlt) (Ne.symm hne))
    refine h (l.get j, j.1) (List.mk_mem_zipIdx_iff_getElem?.mpr (by simp)) ?_
    simp only [List.contains_eq_mem, decide_eq_true_eq, ← hij]
    exact List.mem_take_iff_getElem.mpr ⟨i.1, by simp [hlt], rfl⟩
  · rintro h ⟨x, k⟩ hx
    simp only [List.contains_eq_mem, decide_eq_true_eq]
    intro hc
    obtain ⟨i, hi, rfl⟩ := List.mem_take_iff_getElem.mp hc
    obtain ⟨hk, he⟩ := List.getElem?_eq_some_iff.mp (List.mk_mem_zipIdx_iff_getElem?.mp hx)
    have := (List.Nodup.getElem_inj_iff h).mp he
    omega

theorem mountPointIssues_eq_nil (hs : (draft.steps.map RatingStep.stepId).Nodup) :
    draft.mountPointIssues = [] ↔
      (draft.steps.map RatingStep.stepId ++ draft.subGraphs.map SubGraphRef.mountPoint).Nodup := by
  simp only [RatingAlgorithmDraft.mountPointIssues, ite_eq_right_iff, reduceCtorEq, imp_false,
    not_or, not_not, not_exists, not_and, List.nodup_append, hs, true_and]
  exact and_congr_right fun _ => ⟨fun h a ha b hb he => h b hb (he ▸ ha),
    fun h b hb ha => h b ha b hb rfl⟩

theorem blankIssues_eq_nil :
    draft.blankIssues = [] ↔
      (∀ m ∈ draft.subGraphs, ∀ e ∈ m.inputs.entries, isBlank e.2 = false) ∧
        ∀ m ∈ draft.subGraphs, ∀ e ∈ m.outputs.entries, isBlank e.2 = false := by
  simp only [RatingAlgorithmDraft.blankIssues, List.flatMap_eq_nil_iff, List.append_eq_nil_iff,
    List.map_eq_nil_iff, List.filter_eq_nil_iff, Bool.not_eq_true, forall_and]

theorem mountsFor_of_not_selected {p : MountPurpose} (h : p ∉ draft.selectedPurposes) :
    draft.mountsFor (some p) = draft.mountsFor none := by
  unfold RatingAlgorithmDraft.mountsFor
  congr 1
  refine List.filter_congr fun m hm => ?_
  unfold SubGraphRef.selects
  cases hp : m.purposes with
  | none => rfl
  | some ps =>
    simp only [List.contains_eq_mem, decide_eq_false_iff_not]
    intro hmem
    refine h (List.mem_filter.mpr ⟨by cases p <;> simp, ?_⟩)
    simp only [List.any_eq_true]
    exact ⟨m, hm, by simpa [hp] using hmem⟩

theorem eraseDups_eq_nil {l : List ValidationIssue} : l.eraseDups = [] ↔ l = [] := by
  simp only [List.eq_nil_iff_forall_not_mem, List.mem_eraseDups]

theorem ids_nodup_nodesWith {purpose : Option MountPurpose}
    (h : (draft.steps.map RatingStep.stepId ++
      draft.subGraphs.map SubGraphRef.mountPoint).Nodup) :
    (ids (draft.nodesWith (draft.mountsFor purpose))).Nodup := by
  have hids : ids (draft.nodesWith (draft.mountsFor purpose)) =
      draft.steps.map RatingStep.stepId ++
        (draft.subGraphs.filter (·.selects purpose)).map SubGraphRef.mountPoint := by
    simp [ids, RatingAlgorithmDraft.nodesWith, RatingAlgorithmDraft.mountsFor,
      Function.comp_def, RatingStep.node, SubGraphRef.node]
  rw [hids]
  exact h.sublist ((List.filter_sublist.map _).append_left _)

/-- Saving reports nothing exactly for the accepted drafts. -/
theorem graphInvariantIssues_eq_nil : draft.graphInvariantIssues = [] ↔ Accepted draft := by
  unfold RatingAlgorithmDraft.graphInvariantIssues
  constructor
  · intro h
    split at h
    · rename_i hids
      obtain ⟨hs, hm⟩ := List.append_eq_nil_iff.mp hids
      have hu := (mountPointIssues_eq_nil (stepIdIssues_eq_nil.mp hs)).mp hm
      obtain ⟨hb, hpass⟩ := List.append_eq_nil_iff.mp h
      rw [eraseDups_eq_nil, List.flatMap_eq_nil_iff] at hpass
      have hof : ∀ q ∈ draft.selectedPurposes.map some ++ [none],
          PassOk draft (draft.mountsFor q) draft.purposeMounts :=
        fun q hq => (graphPassIssues_eq_nil (ids_nodup_nodesWith hu)).mp (hpass q hq)
      refine ⟨hu, (blankIssues_eq_nil.mp hb).1, (blankIssues_eq_nil.mp hb).2, fun q => ?_⟩
      cases q with
      | none => exact hof none (by simp)
      | some p =>
        by_cases hp : p ∈ draft.selectedPurposes
        · exact hof (some p) (by simp [hp])
        · rw [mountsFor_of_not_selected hp]; exact hof none (by simp)
    · rename_i issues hne
      exact absurd h (by simpa using hne)
  · rintro ⟨hu, hi, ho, hpass⟩
    have hs := stepIdIssues_eq_nil.mpr (List.nodup_append.mp hu).1
    have hm := (mountPointIssues_eq_nil (List.nodup_append.mp hu).1).mpr hu
    have hnil : (draft.selectedPurposes.map some ++ [none]).flatMap draft.passIssues = [] :=
      List.flatMap_eq_nil_iff.mpr fun q _ =>
        (graphPassIssues_eq_nil (ids_nodup_nodesWith hu)).mpr (hpass q)
    simp [hs, hm, blankIssues_eq_nil.mpr ⟨hi, ho⟩, hnil]

section Perm

variable {steps : List RatingStep}

theorem reaches_perm {α : Type*} {next next' : α → List α} {start start' : List α} {a : α}
    (hn : ∀ x y, y ∈ next x ↔ y ∈ next' x) (hs : ∀ x, x ∈ start ↔ x ∈ start') :
    Reach.Reaches next start a ↔ Reach.Reaches next' start' a := by
  have he : (fun x y => y ∈ next x) = fun x y => y ∈ next' x := by
    funext x y; exact propext (hn x y)
  simp only [Reach.Reaches, he, hs]

theorem PassOk.perm {mounts : List GraphNode} {purposeMounts : List String}
    (h : PassOk draft mounts purposeMounts) (hp : steps.Perm draft.steps) :
    PassOk { draft with steps := steps } mounts purposeMounts := by
  have hnodes : (draft.nodesWith mounts).Perm
      (RatingAlgorithmDraft.nodesWith { draft with steps := steps } mounts) :=
    (hp.symm.map _).append_right _
  have hsucc := fun x y => mem_successors_perm (a := x) (b := y) h.sound.ids_nodup hnodes
  have hpred := fun x y => mem_predecessors_perm (a := x) (b := y) h.sound.ids_nodup hnodes
  have hin : ∀ x, x ∈ inputIds draft.steps ↔ x ∈ inputIds steps := fun x =>
    ((hp.filter _).map _).symm.mem_iff
  have hout : ∀ x, x ∈ outputIds draft.steps ↔ x ∈ outputIds steps := fun x =>
    ((hp.filter _).map _).symm.mem_iff
  refine ⟨?_, h.sound.perm hnodes, ?_, ?_⟩
  · intro o ho
    obtain ⟨s, hs, hn⟩ := h.outputs o ho
    exact ⟨s, hp.mem_iff.mpr hs, hn⟩
  · intro s hs
    rw [← reaches_perm hsucc hin, ← reaches_perm hpred hout]
    exact h.connected s (hp.mem_iff.mp hs)
  · intro m hm hpm s hs hn
    rw [← reaches_perm hsucc fun _ => Iff.rfl]
    exact h.one_risk_price m hm hpm s (hp.mem_iff.mp hs) hn

theorem Accepted.perm (h : Accepted draft) (hp : steps.Perm draft.steps) :
    Accepted { draft with steps := steps } where
  ids_nodup := ((hp.map _).append_right _).nodup_iff.mpr h.ids_nodup
  inputs_named := h.inputs_named
  outputs_named := h.outputs_named
  pass purpose := (h.pass purpose).perm hp

/-- The algorithm with its steps listed in another order. -/
def RatingAlgorithm.reordered (a : RatingAlgorithm) (steps : List RatingStep)
    (hp : steps.Perm a.steps) : RatingAlgorithm where
  toRatingAlgorithmDraft := { a.toRatingAlgorithmDraft with steps := steps }
  graph_ok := graphInvariantIssues_eq_nil.mpr ((graphInvariantIssues_eq_nil.mp a.graph_ok).perm hp)

end Perm

end GiPricing
