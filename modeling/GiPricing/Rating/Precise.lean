import GiPricing.Rating.Accepted

/-! # What the graph check reports

The check names exactly the nodes on a cycle, and where it reports nothing every name has one
final producer. A consumed name has a producer, which may be the consuming node itself.
-/

namespace GiPricing.Graph

variable {nodes : List GraphNode}

/-- A node consumes what another one produces. -/
def Edge (nodes : List GraphNode) (a b : String) : Prop :=
  a ≠ b ∧ ∃ n ∈ nodes, ∃ m ∈ nodes, n.stepId = a ∧ m.stepId = b ∧ ∃ x ∈ n.consumes, x ∈ m.produces

def OnCycle (nodes : List GraphNode) (sid : String) : Prop := Relation.TransGen (Edge nodes) sid sid

/-- An enumeration of the nodes with each after those it depends on. -/
def TopologicalOrder (nodes : List GraphNode) (l : List String) : Prop :=
  l.Perm (ids nodes) ∧ ∀ a b, Edge nodes a b → l.idxOf b < l.idxOf a

/-- The producer of a name that every other one precedes, in every topological order. -/
def FinalProducer (nodes : List GraphNode) (name p : String) : Prop :=
  p ∈ producedBy nodes name ∧ ∀ l, TopologicalOrder nodes l → ∀ q ∈ producedBy nodes name,
    q ≠ p → l.idxOf q < l.idxOf p

theorem edge_iff (hu : (ids nodes).Nodup) {a b : String} :
    Edge nodes a b ↔ b ∈ dependencies nodes a := by
  constructor
  · rintro ⟨hne, n, hn, m, hm, rfl, rfl, h⟩
    exact (mem_dependencies hu hn hm).mpr ⟨hne.symm, h⟩
  · intro hb
    have ha : ∃ n, byId nodes a = some n := by
      cases h : byId nodes a with
      | none => simp [dependencies, h] at hb
      | some n => exact ⟨n, rfl⟩
    obtain ⟨n, hfound⟩ := ha
    obtain ⟨hn, rfl⟩ : n ∈ nodes ∧ n.stepId = a := byId_eq_some hfound
    rw [dependencies_of_mem hu hn, mem_nodeDependencies] at hb
    obtain ⟨hne, m, hm, rfl, h⟩ := hb
    exact ⟨hne.symm, n, hn, m, hm, rfl, rfl, h⟩

theorem onCycle_iff (hu : (ids nodes).Nodup) {sid : String} :
    OnCycle nodes sid ↔ Relation.TransGen (fun x y => y ∈ dependencies nodes x) sid sid := by
  have hedge : Edge nodes = fun x y => y ∈ dependencies nodes x := by
    funext a b
    exact propext (edge_iff hu)
  rw [OnCycle, hedge]

theorem OnCycle.mem {sid : String} (h : OnCycle nodes sid) : ∃ n ∈ nodes, n.stepId = sid := by
  obtain ⟨_, ⟨-, n, hn, -, -, hid, -⟩, -⟩ := Relation.TransGen.head'_iff.mp h
  exact ⟨n, hn, hid⟩

theorem served_before (hu : (ids nodes).Nodup) {a b : String} (ha : a ∈ order nodes)
    (h : Relation.TransGen (fun x y => y ∈ dependencies nodes x) a b) :
    b ∈ order nodes ∧ (order nodes).idxOf b < (order nodes).idxOf a := by
  have w := wellFormed hu
  have htop := Kahn.order_topological (d := Kahn.lifo) w
  have hn := Kahn.order_nodup (d := Kahn.lifo) w
  have hstep : ∀ c d, c ∈ order nodes → d ∈ dependencies nodes c →
      d ∈ order nodes ∧ (order nodes).idxOf d < (order nodes).idxOf c := by
    intro c d hc hd
    obtain ⟨p, s, hsplit⟩ := List.append_of_mem hc
    refine ⟨?_, htop.before hn hc hd⟩
    rw [hsplit]
    exact List.mem_append_left _ (htop p c s hsplit d hd)
  induction h with
  | single hd => exact hstep _ _ ha hd
  | tail _ hd ih =>
    obtain ⟨hmem, hlt⟩ := hstep _ _ ih.1 hd
    exact ⟨hmem, hlt.trans ih.2⟩

theorem mem_cycleIssues (hu : (ids nodes).Nodup) {sid : String} :
    ValidationIssue.onCycle sid ∈ cycleIssues nodes ↔ OnCycle nodes sid := by
  have w := wellFormed hu
  have hlies : ∀ a ∈ ids nodes, liesOnCycle nodes a = true ↔ OnCycle nodes a := by
    intro a ha
    rw [liesOnCycle, List.contains_eq_mem, decide_eq_true_eq,
      Reach.mem_reach hu w.deps_mem (w.deps_mem a ha), onCycle_iff hu]
    exact (Relation.TransGen.head'_iff (r := fun x y => y ∈ dependencies nodes x)).symm
  constructor
  · intro h
    unfold cycleIssues at h
    split_ifs at h
    · obtain ⟨n, hn, heq⟩ := List.mem_map.mp h
      obtain ⟨hmem, hcond⟩ := List.mem_filter.mp hn
      obtain rfl : n.stepId = sid := by simpa using heq
      rw [Bool.and_eq_true] at hcond
      exact (hlies _ (List.mem_map_of_mem hmem)).mp hcond.2
    · cases h
  · intro h
    obtain ⟨n, hn, rfl⟩ := h.mem
    have hnot : n.stepId ∉ order nodes := fun ho =>
      lt_irrefl _ (served_before hu ho ((onCycle_iff hu).mp h)).2
    have hcycle : hasCycle nodes = true := by
      by_contra hc
      rw [Bool.not_eq_true, hasCycle_eq_false hu] at hc
      exact hnot (Kahn.order_complete w hc (List.mem_map_of_mem hn))
    rw [cycleIssues, if_pos hcycle]
    refine List.mem_map.mpr ⟨n, List.mem_filter.mpr ⟨hn, ?_⟩, rfl⟩
    simp [hnot, (hlies _ (List.mem_map_of_mem hn)).mpr h]

theorem topologicalOrder_order (h : Sound nodes) : TopologicalOrder nodes (order nodes) := by
  have w := wellFormed h.ids_nodup
  refine ⟨Kahn.order_perm w h.acyclic, fun a b hab => ?_⟩
  have hb := (edge_iff h.ids_nodup).mp hab
  obtain ⟨-, n, hn, -, -, rfl, -⟩ := hab
  exact before_of_mem_dependencies h.ids_nodup h.acyclic (List.mem_map_of_mem hn) hb

theorem Sound.existsUnique_finalProducer (h : Sound nodes) {n : GraphNode} {name : String}
    (hn : n ∈ nodes) (hname : name ∈ n.produces) : ∃! p, FinalProducer nodes name p := by
  have hne : (producedBy nodes name).toFinset.Nonempty :=
    ⟨n.stepId, List.mem_toFinset.mpr (mem_producedBy.mpr ⟨n, hn, rfl, hname⟩)⟩
  obtain ⟨p, hp, hmax⟩ :=
    Finset.exists_max_image (producedBy nodes name).toFinset (order nodes).idxOf hne
  rw [List.mem_toFinset] at hp
  have htop := topologicalOrder_order h
  refine ⟨p, ⟨hp, fun l hl q hq hqp => ?_⟩, ?_⟩
  · obtain ⟨m, hm, rfl, hmx⟩ := mem_producedBy.mp hp
    obtain ⟨k, hk, rfl, hkx⟩ := mem_producedBy.mp hq
    rcases h.related hm hk (Ne.symm hqp) hmx hkx with hdep | hdep
    · exact hl.2 _ _ ((edge_iff h.ids_nodup).mpr hdep)
    · have hlt := htop.2 _ _ ((edge_iff h.ids_nodup).mpr hdep)
      exact absurd hlt (not_lt.mpr (hmax _ (List.mem_toFinset.mpr hq)))
  · rintro q ⟨hq, hfinal⟩
    by_contra hqp
    have hlt := hfinal _ htop p hp (Ne.symm hqp)
    exact absurd hlt (not_lt.mpr (hmax q (List.mem_toFinset.mpr hq)))

end GiPricing.Graph

namespace GiPricing

open GiPricing.Graph

namespace RatingAlgorithmDraft

variable (draft : RatingAlgorithmDraft)

def nodesFor (purpose : Option MountPurpose) : List GraphNode :=
  draft.nodesWith (draft.mountsFor purpose)

/-- The step ids and the mount points index the graph. -/
def Indexed : Prop :=
  (draft.steps.map RatingStep.stepId ++ draft.subGraphs.map SubGraphRef.mountPoint).Nodup

/-- Every consumed name is produced by another node than the one that consumes it. -/
def ProducedElsewhere : Prop :=
  ∀ purpose, ∀ n ∈ draft.nodesFor purpose, ∀ x ∈ n.consumes,
    ∃ m ∈ draft.nodesFor purpose, m.stepId ≠ n.stepId ∧ x ∈ m.produces

/-- A cycle is reported exactly where there is one, for the nodes that lie on it; and where
nothing is reported, every consumed name has another producer upstream and every name that is
produced has one final producer. -/
structure SoundAndPrecise : Prop where
  cycles : ∀ sid, .onCycle sid ∈ draft.graphInvariantIssues ↔
    ∃ purpose, OnCycle (draft.nodesFor purpose) sid
  upstream : draft.graphInvariantIssues = [] → ∀ purpose, ∀ n ∈ draft.nodesFor purpose,
    ∀ x ∈ n.consumes, ∃ m ∈ draft.nodesFor purpose, m.stepId ≠ n.stepId ∧ x ∈ m.produces ∧
      ∀ l, TopologicalOrder (draft.nodesFor purpose) l → l.idxOf m.stepId < l.idxOf n.stepId
  final : draft.graphInvariantIssues = [] → ∀ purpose, ∀ n ∈ draft.nodesFor purpose,
    ∀ x ∈ n.produces, ∃! p, FinalProducer (draft.nodesFor purpose) x p

variable {draft}

theorem mem_passIssues {purpose : Option MountPurpose} {sid : String} :
    .onCycle sid ∈ draft.passIssues purpose ↔
      ValidationIssue.onCycle sid ∈ cycleIssues (draft.nodesFor purpose) := by
  simp [passIssues, graphPassIssues, nodesFor, undefinedIssues, chainIssues, orphanIssues,
    riskPriceIssues]

theorem Indexed.mem_issues (h : draft.Indexed) {sid : String} :
    .onCycle sid ∈ draft.graphInvariantIssues ↔ ∃ purpose, OnCycle (draft.nodesFor purpose) sid := by
  have hs := stepIdIssues_eq_nil.mpr (List.nodup_append.mp h).1
  have hm := (mountPointIssues_eq_nil (List.nodup_append.mp h).1).mpr h
  have hblank : ValidationIssue.onCycle sid ∉ draft.blankIssues := by simp [blankIssues]
  have hissues : .onCycle sid ∈ draft.graphInvariantIssues ↔
      ∃ q ∈ draft.selectedPurposes.map some ++ [none], OnCycle (draft.nodesFor q) sid := by
    have hpass : ∀ q, .onCycle sid ∈ draft.passIssues q ↔ OnCycle (draft.nodesFor q) sid :=
      fun q => mem_passIssues.trans (mem_cycleIssues (ids_nodup_nodesWith h))
    unfold graphInvariantIssues
    rw [hs, hm]
    simp only [List.append_nil, List.mem_append, hblank, false_or, List.mem_eraseDups,
      List.mem_flatMap, hpass]
  rw [hissues]
  constructor
  · rintro ⟨q, -, hq⟩
    exact ⟨q, hq⟩
  · rintro ⟨q, hq⟩
    cases q with
    | none => exact ⟨none, by simp, hq⟩
    | some p =>
      by_cases hp : p ∈ draft.selectedPurposes
      · exact ⟨some p, by simp [hp], hq⟩
      · refine ⟨none, by simp, ?_⟩
        rw [nodesFor, mountsFor_of_not_selected hp] at hq
        exact hq

theorem not_mem_issues (h : ¬ draft.Indexed) (sid : String) :
    .onCycle sid ∉ draft.graphInvariantIssues := by
  have hplain : ValidationIssue.onCycle sid ∉ draft.stepIdIssues ++ draft.mountPointIssues := by
    have hpoint : ValidationIssue.onCycle sid ∉ draft.mountPointIssues := by
      unfold mountPointIssues
      dsimp only
      split_ifs <;> simp
    simp [stepIdIssues, hpoint]
  unfold graphInvariantIssues
  split
  · rename_i hnil
    obtain ⟨hs, hm⟩ := List.append_eq_nil_iff.mp hnil
    exact absurd ((mountPointIssues_eq_nil (stepIdIssues_eq_nil.mp hs)).mp hm) h
  · exact hplain

/-- The check is sound and precise exactly when the graph is indexed or has no cycle, and no
accepted draft consumes a name that only the consuming node produces. -/
theorem soundAndPrecise_iff (draft : RatingAlgorithmDraft) :
    draft.SoundAndPrecise ↔
      (draft.Indexed ∨ ∀ purpose sid, ¬ OnCycle (draft.nodesFor purpose) sid) ∧
        (Accepted draft → draft.ProducedElsewhere) := by
  constructor
  · intro h
    constructor
    · by_contra hc
      rw [not_or] at hc
      obtain ⟨hi, hc⟩ := hc
      refine hc fun purpose sid hcycle => ?_
      exact not_mem_issues hi sid ((h.cycles sid).mpr ⟨purpose, hcycle⟩)
    · intro ha purpose n hn x hx
      obtain ⟨m, hm, hne, hmx, -⟩ :=
        h.upstream (graphInvariantIssues_eq_nil.mpr ha) purpose n hn x hx
      exact ⟨m, hm, hne, hmx⟩
  · rintro ⟨hcycle, helse⟩
    refine ⟨fun sid => ?_, fun hnil purpose n hn x hx => ?_, fun hnil purpose n hn x hx => ?_⟩
    · rcases Classical.em draft.Indexed with hi | hi
      · exact hi.mem_issues
      · have hno := hcycle.resolve_left hi
        refine ⟨fun h => absurd h (not_mem_issues hi sid), ?_⟩
        rintro ⟨purpose, h⟩
        exact absurd h (hno purpose sid)
    · obtain ⟨m, hm, hne, hmx⟩ :=
        helse (graphInvariantIssues_eq_nil.mp hnil) purpose n hn x hx
      exact ⟨m, hm, hne, hmx, fun l hl =>
        hl.2 _ _ ⟨hne.symm, n, hn, m, hm, rfl, rfl, x, hx, hmx⟩⟩
    · have hsound := ((graphInvariantIssues_eq_nil.mp hnil).pass purpose).sound
      exact hsound.existsUnique_finalProducer hn hx

/-- An algorithm whose clamp is the only producer of the name it clamps. -/
def loneClampDraft : RatingAlgorithmDraft where
  slug := "motor"
  version := 1
  inputContract := []
  outputs := [{ name := "premium", type := "decimal" }]
  steps := [
    { stepId := "cap", consumes := ["price"], produces := ["price"],
      kind := .constraint "price > 0" .clamp none "CAP" },
    { stepId := "out", consumes := ["price"], produces := ["premium"],
      kind := .output "premium" ⟨.halfUp, 2⟩ }]
  subGraphs := []

/-- The check reports nothing of a clamp of a name nobody else produces. -/
theorem not_soundAndPrecise_loneClamp :
    loneClampDraft.graphInvariantIssues = [] ∧ ¬ loneClampDraft.SoundAndPrecise := by
  have hnil : loneClampDraft.graphInvariantIssues = [] := by decide
  refine ⟨hnil, fun h => ?_⟩
  obtain ⟨m, hm, hne, hmx, -⟩ := h.upstream hnil none
    ⟨"cap", ["price"], ["price"]⟩ (by decide) "price" (by decide)
  have honly : ∀ m ∈ loneClampDraft.nodesFor none, "price" ∈ m.produces → m.stepId = "cap" := by
    decide
  exact hne (honly m hm hmx)

end RatingAlgorithmDraft

end GiPricing
