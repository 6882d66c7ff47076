import GiPricing.Attribution.Merged
import GiPricing.Merge.Subsets

/-! # Dependence between change groups

The check of each group alone, and when the algorithm of every subset of the groups has a producer
for each name it consumes.
-/

namespace GiPricing.Attribution

open Merge

/-- A mount is a node: it consumes the names its inputs map to and produces those of its outputs. -/
def mountNode (m : SubGraphRef) : GraphNode := ⟨m.mountPoint, m.inputs.values, m.outputs.values⟩

def algorithmNodes (a : RatingAlgorithmDraft) : List GraphNode :=
  a.steps.map RatingStep.node ++ a.subGraphs.map mountNode

/-- The pairs of a group whose steps and mounts, alone over the baseline, miss a producer. -/
def missingPairs (d : Derivation) (members : List Change) : List (ℕ × ℕ) :=
  let nodes := algorithmNodes (mergedAlgorithm d.baseline d.candidate members)
  let produced := nodes.flatMap GraphNode.produces
  nodes.flatMap fun n => n.consumes.filterMap fun name =>
    if name ∈ produced then none
    else
      let consumer := d.changes.find? fun c => c.nodeId = some n.stepId
      let producer := (d.changes.find? fun c => name ∈ c.produces true).or
        (d.changes.find? fun c => name ∈ c.produces false)
      -- An unchanged consumer is not a change, and adds no pair.
      match consumer, producer with
      | some c, some p => some (c.id, p.id)
      | _, _ => none

/-- The pairs of an input or output step and another change with its contract field or output. -/
def interfacePairs (d : Derivation) (members : List Change) : List (ℕ × ℕ) :=
  members.flatMap fun c => match c.step with
    | none => []
    | some step => d.changes.flatMap fun other =>
      if other.id ∈ members.map Change.id then []
      else (if other.fields.any fun f => readsInput step f.name then [(c.id, other.id)] else []) ++
        if other.outputs.any fun o => readsOutput step o.name then [(c.id, other.id)] else []

def changeId (n : ℕ) : String := "c" ++ toString n

/-- `_check_dependence`: the pairs it refuses, sorted by the texts of their ids. -/
def checkDependence (d : Derivation) (groups : List (List Change)) : Except (List (ℕ × ℕ)) Unit :=
  let pairs := groups.flatMap fun members => missingPairs d members ++ interfacePairs d members
  if pairs = [] then .ok ()
  else .error (pairs.dedup.insertionSort fun p q => changeId p.1 < changeId q.1 ∨
    changeId p.1 = changeId q.1 ∧ changeId p.2 ≤ changeId q.2)

/-- `_members`: the changes of the groups in a mask. -/
def membersOf (groups : List (List Change)) (mask : ℕ → Bool) : List Change :=
  groups.zipIdx.flatMap fun (members, i) => if mask i then members else []

def maskAlgorithm (d : Derivation) (groups : List (List Change)) (mask : ℕ → Bool) :
    RatingAlgorithmDraft :=
  subsetAlgorithm d (membersOf groups mask) ((List.range groups.length).all mask)

/-! ## The groups as sides -/

def touchedNodes (a : RatingAlgorithmDraft) (members : List Change) : Set GraphNode :=
  {n | (∃ s ∈ a.steps, (∃ c ∈ members, c.stepId = some s.stepId) ∧ s.node = n) ∨
    ∃ m ∈ a.subGraphs, (∃ c ∈ members, c.mountPoint = some m.mountPoint) ∧ mountNode m = n}

def untouchedNodes (a : RatingAlgorithmDraft) (members : List Change) : Set GraphNode :=
  {n | (∃ s ∈ a.steps, (¬ ∃ c ∈ members, c.stepId = some s.stepId) ∧ s.node = n) ∨
    ∃ m ∈ a.subGraphs, (¬ ∃ c ∈ members, c.mountPoint = some m.mountPoint) ∧ mountNode m = n}

/-- The nodes no change is about, and those of each group in the baseline and in the candidate. -/
def sidesOf (d : Derivation) (groups : List (List Change)) : Sides GraphNode ℕ where
  shared := untouchedNodes d.baseline d.changes
  old i := touchedNodes d.baseline (groups.getD i [])
  new i := touchedNodes d.candidate (groups.getD i [])

def Produced (a : RatingAlgorithmDraft) : Prop :=
  Closed GraphNode.consumes GraphNode.produces {n | n ∈ algorithmNodes a}

section Members

variable {groups : List (List Change)} {mask : ℕ → Bool} {c : Change} {i j : ℕ}

theorem mem_membersOf : c ∈ membersOf groups mask ↔ ∃ i, mask i = true ∧ c ∈ groups.getD i [] := by
  rw [membersOf, List.mem_flatMap]
  constructor
  · rintro ⟨⟨g, i⟩, hg, hc⟩
    dsimp only at hc
    split_ifs at hc with hi
    · have hget := List.mk_mem_zipIdx_iff_getElem?.mp hg
      exact ⟨i, hi, by rwa [List.getD_eq_getElem?_getD, hget]⟩
    · cases hc
  · rintro ⟨i, hi, hc⟩
    rw [List.getD_eq_getElem?_getD] at hc
    cases hget : groups[i]? with
    | none =>
      rw [hget] at hc
      cases hc
    | some g =>
      rw [hget] at hc
      refine ⟨(g, i), List.mk_mem_zipIdx_iff_getElem?.mpr hget, ?_⟩
      dsimp only
      rwa [if_pos hi]

theorem mem_flatten_getD : c ∈ groups.flatten ↔ ∃ i, c ∈ groups.getD i [] := by
  rw [List.mem_flatten]
  constructor
  · rintro ⟨g, hg, hc⟩
    obtain ⟨i, hi⟩ := List.mem_iff_getElem?.mp hg
    exact ⟨i, by rwa [List.getD_eq_getElem?_getD, hi]⟩
  · rintro ⟨i, hc⟩
    rw [List.getD_eq_getElem?_getD] at hc
    cases hget : groups[i]? with
    | none =>
      rw [hget] at hc
      cases hc
    | some g =>
      rw [hget] at hc
      exact ⟨g, List.mem_of_getElem? hget, hc⟩

theorem membersOf_sublist : (membersOf groups mask).Sublist groups.flatten := by
  have h : ∀ (l : List (List Change)) n, ((l.zipIdx n).flatMap fun (members, i) =>
      if mask i then members else []).Sublist l.flatten := by
    intro l
    induction l with
    | nil => exact fun n => .slnil
    | cons g l ih =>
      intro n
      rw [List.zipIdx_cons, List.flatMap_cons, List.flatten_cons]
      refine List.Sublist.append ?_ (ih (n + 1))
      dsimp only
      split_ifs
      · exact List.Sublist.refl g
      · exact List.nil_sublist g
  exact h groups 0

theorem membersOf_all (h : (List.range groups.length).all mask = true) :
    membersOf groups mask = groups.flatten := by
  have hmask : ∀ i < groups.length, mask i = true := fun i hi =>
    List.all_eq_true.mp h i (List.mem_range.mpr hi)
  rw [membersOf]
  calc (groups.zipIdx.flatMap fun (members, i) => if mask i then members else [])
      = groups.zipIdx.flatMap Prod.fst := List.flatMap_congr fun p hp => by
        dsimp only
        rw [if_pos (hmask _ (by simpa using List.snd_lt_of_mem_zipIdx hp))]
    _ = groups.flatten := by
        rw [List.flatMap_def, List.zipIdx_map_fst]

theorem eq_of_mem_groups (hn : groups.flatten.Nodup) (hi : c ∈ groups.getD i [])
    (hj : c ∈ groups.getD j []) : i = j := by
  have hget : ∀ {i}, c ∈ groups.getD i [] → ∃ h : i < groups.length, c ∈ groups[i] := by
    intro i hc
    rw [List.getD_eq_getElem?_getD] at hc
    by_cases hlt : i < groups.length
    · exact ⟨hlt, by rwa [List.getElem?_eq_getElem hlt] at hc⟩
    · rw [List.getElem?_eq_none (by omega)] at hc
      cases hc
  obtain ⟨hi, hci⟩ := hget hi
  obtain ⟨hj, hcj⟩ := hget hj
  have hdisjoint := List.pairwise_iff_getElem.mp (List.nodup_flatten.mp hn).2
  rcases Nat.lt_trichotomy i j with hlt | heq | hgt
  · exact absurd hcj (hdisjoint i j hi hj hlt hci)
  · exact heq
  · exact absurd hci (hdisjoint j i hj hi hgt hcj)

end Members

/-! ## The nodes of a subset -/

section Nodes

variable {base cand : RatingAlgorithmDraft} {members changes : List Change} {n : GraphNode}

theorem lastOf_ne_none {key : Change → Option String} {diff : String → Option Applied}
    (h : Covers (fun c => ((key c).map (·, applied c.kind)).toList) diff changes)
    (hsub : members.Sublist changes) {k : String} :
    lastOf (members.flatMap fun c => ((key c).map (·, applied c.kind)).toList) k ≠ none ↔
      ∃ c ∈ members, key c = some k := by
  rw [Option.ne_none_iff_exists']
  simp only [lastOf_eq_some (h.nodup_members hsub), List.mem_flatMap, Option.mem_toList,
    Option.map_eq_some_iff, Prod.mk.injEq]
  constructor
  · rintro ⟨_, c, hc, _, hid, rfl, -⟩
    exact ⟨c, hc, hid⟩
  · rintro ⟨c, hc, hid⟩
    exact ⟨_, c, hc, k, hid, rfl, rfl⟩

theorem eq_of_key {key : Change → Option String} {diff : String → Option Applied}
    (h : Covers (fun c => ((key c).map (·, applied c.kind)).toList) diff changes) {k : String}
    {c c' : Change} (hc : c ∈ changes) (hc' : c' ∈ changes) (hk : key c = some k)
    (hk' : key c' = some k) : c = c' :=
  h.eq_of_item (k := k) (a := applied c.kind) (b := applied c'.kind) hc hc' (by simp [hk])
    (by simp [hk'])

theorem mem_algorithmNodes {a : RatingAlgorithmDraft} :
    n ∈ algorithmNodes a ↔ (∃ s ∈ a.steps, s.node = n) ∨ ∃ m ∈ a.subGraphs, mountNode m = n := by
  rw [algorithmNodes, List.mem_append, List.mem_map, List.mem_map]

/-- The changes cover the steps and the mounts that differ. -/
structure CoversNodes (base cand : RatingAlgorithmDraft) (changes : List Change) : Prop where
  base_steps : (base.steps.map RatingStep.stepId).Nodup
  base_mounts : (base.subGraphs.map SubGraphRef.mountPoint).Nodup
  cand_steps : (cand.steps.map RatingStep.stepId).Nodup
  cand_mounts : (cand.subGraphs.map SubGraphRef.mountPoint).Nodup
  steps : Covers stepItems (diffAt RatingStep.stepId stepFields base.steps cand.steps) changes
  mounts : Covers mountItems
    (diffAt SubGraphRef.mountPoint mountDump base.subGraphs cand.subGraphs) changes

/-- Merging takes the nodes the changes are about from the candidate, the others from the baseline. -/
theorem mem_mergedNodes (h : CoversNodes base cand changes) (hsub : members.Sublist changes) :
    n ∈ algorithmNodes (mergedAlgorithm base cand members) ↔
      n ∈ untouchedNodes base members ∨ n ∈ touchedNodes cand members := by
  have hsteps : Applies RatingStep.stepId base.steps cand.steps (stepsApplied members) := by
    rw [stepsApplied_eq]
    exact applies_of_diff h.base_steps h.cand_steps fun k a => h.steps.sub hsub
  have hmounts : Applies SubGraphRef.mountPoint base.subGraphs cand.subGraphs
      (mountsApplied members) := by
    rw [mountsApplied_eq]
    exact applies_of_diff h.base_mounts h.cand_mounts fun k a => h.mounts.sub hsub
  have hs : ∀ k, stepsApplied members k = none ↔ ¬ ∃ c ∈ members, c.stepId = some k := fun k => by
    rw [← lastOf_ne_none h.steps hsub, not_not, stepsApplied_eq]
    rfl
  have hm : ∀ k, mountsApplied members k = none ↔ ¬ ∃ c ∈ members, c.mountPoint = some k :=
    fun k => by
      rw [← lastOf_ne_none h.mounts hsub, not_not, mountsApplied_eq]
      rfl
  rw [mem_algorithmNodes]
  simp only [mergedAlgorithm, mem_merged hsteps, mem_merged hmounts, ne_eq, hs, hm, not_not]
  constructor
  · rintro (⟨s, ⟨hmem, hid⟩ | ⟨hmem, hid⟩, rfl⟩ | ⟨m, ⟨hmem, hid⟩ | ⟨hmem, hid⟩, rfl⟩)
    · exact Or.inl (Or.inl ⟨s, hmem, hid, rfl⟩)
    · exact Or.inr (Or.inl ⟨s, hmem, hid, rfl⟩)
    · exact Or.inl (Or.inr ⟨m, hmem, hid, rfl⟩)
    · exact Or.inr (Or.inr ⟨m, hmem, hid, rfl⟩)
  · rintro ((⟨s, hmem, hid, rfl⟩ | ⟨m, hmem, hid, rfl⟩) | ⟨s, hmem, hid, rfl⟩ | ⟨m, hmem, hid, rfl⟩)
    · exact Or.inl ⟨s, Or.inl ⟨hmem, hid⟩, rfl⟩
    · exact Or.inr ⟨m, Or.inl ⟨hmem, hid⟩, rfl⟩
    · exact Or.inl ⟨s, Or.inr ⟨hmem, hid⟩, rfl⟩
    · exact Or.inr ⟨m, Or.inr ⟨hmem, hid⟩, rfl⟩

theorem not_touched_iff {groups : List (List Change)} {mask : ℕ → Bool} (p : Change → Prop)
    (hn : groups.flatten.Nodup)
    (hone : ∀ c ∈ groups.flatten, ∀ c' ∈ groups.flatten, p c → p c' → c = c') :
    (¬ ∃ c ∈ membersOf groups mask, p c) ↔
      (¬ ∃ c ∈ groups.flatten, p c) ∨ ∃ i, mask i = false ∧ ∃ c ∈ groups.getD i [], p c := by
  constructor
  · intro h
    by_cases hp : ∃ c ∈ groups.flatten, p c
    · obtain ⟨c, hc, hpc⟩ := hp
      obtain ⟨i, hi⟩ := mem_flatten_getD.mp hc
      refine Or.inr ⟨i, ?_, c, hi, hpc⟩
      by_contra hmask
      rw [Bool.not_eq_false] at hmask
      exact h ⟨c, mem_membersOf.mpr ⟨i, hmask, hi⟩, hpc⟩
    · exact Or.inl hp
  · rintro (h | ⟨i, hmask, c, hc, hpc⟩) ⟨c', hc', hpc'⟩
    · exact h ⟨c', membersOf_sublist.subset hc', hpc'⟩
    · obtain ⟨j, hj, hc'⟩ := mem_membersOf.mp hc'
      obtain rfl := hone c (mem_flatten_getD.mpr ⟨i, hc⟩) c' (mem_flatten_getD.mpr ⟨j, hc'⟩) hpc hpc'
      rw [eq_of_mem_groups hn hc hc', hj] at hmask
      cases hmask

theorem touched_iff {groups : List (List Change)} {mask : ℕ → Bool} (p : Change → Prop) :
    (∃ c ∈ membersOf groups mask, p c) ↔
      ∃ i, mask i = true ∧ ∃ c ∈ groups.getD i [], p c := by
  constructor
  · rintro ⟨c, hc, hp⟩
    obtain ⟨i, hi, hc⟩ := mem_membersOf.mp hc
    exact ⟨i, hi, c, hc, hp⟩
  · rintro ⟨i, hi, c, hc, hp⟩
    exact ⟨c, mem_membersOf.mpr ⟨i, hi, hc⟩, hp⟩

theorem names_of_fields {s t : RatingStep} (h : stepFields s = stepFields t) :
    s.consumes = t.consumes ∧ s.produces = t.produces := by
  simp only [stepFields, List.cons_append, List.cons.injEq, Prod.mk.injEq, true_and,
    FieldValue.names.injEq] at h
  exact ⟨h.2.2.2.1, h.2.2.2.2.1⟩

theorem values_of_entries {d e : Dict String} (h : d.entries.toFinset = e.entries.toFinset)
    {x : String} (hx : x ∈ d.values) : x ∈ e.values := by
  obtain ⟨p, hp, rfl⟩ := List.mem_map.mp hx
  exact List.mem_map_of_mem (List.mem_toFinset.mp (h ▸ List.mem_toFinset.mpr hp))

/-- Algorithms with the same steps and mounts name the same. -/
theorem names_of_perm {a b : RatingAlgorithmDraft} {x : String}
    (hsteps : (a.steps.map stepFields).Perm (b.steps.map stepFields))
    (hmounts : (a.subGraphs.map mountDump).Perm (b.subGraphs.map mountDump)) :
    (Names GraphNode.consumes {n | n ∈ algorithmNodes a} x →
      Names GraphNode.consumes {n | n ∈ algorithmNodes b} x) ∧
    (Names GraphNode.produces {n | n ∈ algorithmNodes a} x →
      Names GraphNode.produces {n | n ∈ algorithmNodes b} x) := by
  have hstep : ∀ s ∈ a.steps, ∃ t ∈ b.steps, s.consumes = t.consumes ∧ s.produces = t.produces := by
    intro s hs
    obtain ⟨t, ht, hst⟩ := List.mem_map.mp (hsteps.mem_iff.mp (List.mem_map_of_mem hs))
    exact ⟨t, ht, names_of_fields hst.symm⟩
  have hmount : ∀ m ∈ a.subGraphs, ∃ m' ∈ b.subGraphs, mountDump m = mountDump m' := by
    intro m hm
    obtain ⟨m', hm', h⟩ := List.mem_map.mp (hmounts.mem_iff.mp (List.mem_map_of_mem hm))
    exact ⟨m', hm', h.symm⟩
  constructor
  · rintro ⟨n, hn, hx⟩
    rcases mem_algorithmNodes.mp hn with ⟨s, hs, rfl⟩ | ⟨m, hm, rfl⟩
    · obtain ⟨t, ht, hc, -⟩ := hstep s hs
      exact ⟨t.node, mem_algorithmNodes.mpr (Or.inl ⟨t, ht, rfl⟩), show x ∈ t.consumes from hc ▸ hx⟩
    · obtain ⟨m', hm', h⟩ := hmount m hm
      exact ⟨mountNode m', mem_algorithmNodes.mpr (Or.inr ⟨m', hm', rfl⟩),
        values_of_entries (congrArg MountDump.inputs h) hx⟩
  · rintro ⟨n, hn, hx⟩
    rcases mem_algorithmNodes.mp hn with ⟨s, hs, rfl⟩ | ⟨m, hm, rfl⟩
    · obtain ⟨t, ht, -, hp⟩ := hstep s hs
      exact ⟨t.node, mem_algorithmNodes.mpr (Or.inl ⟨t, ht, rfl⟩), show x ∈ t.produces from hp ▸ hx⟩
    · obtain ⟨m', hm', h⟩ := hmount m hm
      exact ⟨mountNode m', mem_algorithmNodes.mpr (Or.inr ⟨m', hm', rfl⟩),
        values_of_entries (congrArg MountDump.outputs h) hx⟩

theorem produced_of_perm {a b : RatingAlgorithmDraft}
    (hsteps : (a.steps.map stepFields).Perm (b.steps.map stepFields))
    (hmounts : (a.subGraphs.map mountDump).Perm (b.subGraphs.map mountDump)) :
    Produced a ↔ Produced b := by
  have himp : ∀ {a b : RatingAlgorithmDraft}, (a.steps.map stepFields).Perm (b.steps.map stepFields) →
      (a.subGraphs.map mountDump).Perm (b.subGraphs.map mountDump) → Produced a → Produced b :=
    fun hs hm h x hx => (names_of_perm hs hm).2 (h x ((names_of_perm hs.symm hm.symm).1 hx))
  exact ⟨himp hsteps hmounts, himp hsteps.symm hmounts.symm⟩

end Nodes

section Groups

variable {baseline candidate : RatingVersion} {d : Derivation} {groups : List (List Change)}
  {mask : ℕ → Bool}

theorem deriveChanges_nodup {base cand : RatingAlgorithmDraft} {basePins candPins : Option Pins} :
    (deriveChanges base cand basePins candPins).Nodup := by
  refine List.Nodup.of_map Change.id ?_
  rw [deriveChanges, List.map_map]
  refine Eq.subst (motive := List.Nodup) (List.zipIdx_map_snd 1 _).symm List.nodup_range'

theorem Covers.of_perm {items : Change → List (String × Applied)} {diff : String → Option Applied}
    {changes l : List Change} (h : Covers items diff changes) (hp : changes.Perm l) :
    Covers items diff l :=
  ⟨(((hp.flatMap_right items).map Prod.fst).nodup_iff).mp h.nodup,
    fun k a => (hp.flatMap_right items).mem_iff.symm.trans (h.mem k a)⟩

theorem coversNodes (h : derive baseline candidate = .ok d) (hp : groups.flatten.Perm d.changes) :
    CoversNodes d.baseline d.candidate groups.flatten ∧ groups.flatten.Nodup := by
  obtain ⟨base, cand, -, -, hbase, hcand, hd⟩ := derive_ok h
  have hids := fun a : RatingAlgorithm => List.nodup_append.mp
    (graphInvariantIssues_eq_nil.mp a.graph_ok).ids_nodup
  rw [hd] at hp
  refine ⟨?_, hp.nodup_iff.mpr deriveChanges_nodup⟩
  exact
    { base_steps := hbase ▸ (hids base).1
      base_mounts := hbase ▸ (hids base).2.1
      cand_steps := hcand ▸ (hids cand).1
      cand_mounts := hcand ▸ (hids cand).2.1
      steps := covers_steps.of_perm hp.symm
      mounts := covers_mounts.of_perm hp.symm }

/-- The nodes after merging a mask are those present once its groups are applied. -/
theorem mem_maskNodes (h : CoversNodes d.baseline d.candidate groups.flatten)
    (hn : groups.flatten.Nodup) (hp : groups.flatten.Perm d.changes) :
    {n | n ∈ algorithmNodes (mergedAlgorithm d.baseline d.candidate (membersOf groups mask))} =
      (sidesOf d groups).present {i | mask i = true} := by
  have hs : ∀ k, (¬ ∃ c ∈ membersOf groups mask, c.stepId = some k) ↔
      (¬ ∃ c ∈ d.changes, c.stepId = some k) ∨
        ∃ i, mask i = false ∧ ∃ c ∈ groups.getD i [], c.stepId = some k := fun k => by
    rw [not_touched_iff _ hn fun c hc c' hc' => eq_of_key h.steps hc hc']
    simp only [hp.mem_iff]
  have hm : ∀ k, (¬ ∃ c ∈ membersOf groups mask, c.mountPoint = some k) ↔
      (¬ ∃ c ∈ d.changes, c.mountPoint = some k) ∨
        ∃ i, mask i = false ∧ ∃ c ∈ groups.getD i [], c.mountPoint = some k := fun k => by
    rw [not_touched_iff _ hn fun c hc c' hc' => eq_of_key h.mounts hc hc']
    simp only [hp.mem_iff]
  ext n
  rw [Set.mem_ofPred_eq, mem_mergedNodes h membersOf_sublist]
  simp only [untouchedNodes, touchedNodes, Sides.present, sidesOf, Set.mem_ofPred_eq, hs, hm]
  simp only [touched_iff, Bool.not_eq_true]
  constructor
  · rintro ((⟨s, hmem, hid | ⟨i, hi, hid⟩, rfl⟩ | ⟨m, hmem, hid | ⟨i, hi, hid⟩, rfl⟩) |
      ⟨s, hmem, ⟨i, hi, hid⟩, rfl⟩ | ⟨m, hmem, ⟨i, hi, hid⟩, rfl⟩)
    · exact Or.inl (Or.inl ⟨s, hmem, hid, rfl⟩)
    · exact Or.inr (Or.inl ⟨i, hi, Or.inl ⟨s, hmem, hid, rfl⟩⟩)
    · exact Or.inl (Or.inr ⟨m, hmem, hid, rfl⟩)
    · exact Or.inr (Or.inl ⟨i, hi, Or.inr ⟨m, hmem, hid, rfl⟩⟩)
    · exact Or.inr (Or.inr ⟨i, hi, Or.inl ⟨s, hmem, hid, rfl⟩⟩)
    · exact Or.inr (Or.inr ⟨i, hi, Or.inr ⟨m, hmem, hid, rfl⟩⟩)
  · rintro ((⟨s, hmem, hid, rfl⟩ | ⟨m, hmem, hid, rfl⟩) |
      ⟨i, hi, ⟨s, hmem, hid, rfl⟩ | ⟨m, hmem, hid, rfl⟩⟩ |
      ⟨i, hi, ⟨s, hmem, hid, rfl⟩ | ⟨m, hmem, hid, rfl⟩⟩)
    · exact Or.inl (Or.inl ⟨s, hmem, Or.inl hid, rfl⟩)
    · exact Or.inl (Or.inr ⟨m, hmem, Or.inl hid, rfl⟩)
    · exact Or.inl (Or.inl ⟨s, hmem, Or.inr ⟨i, hi, hid⟩, rfl⟩)
    · exact Or.inl (Or.inr ⟨m, hmem, Or.inr ⟨i, hi, hid⟩, rfl⟩)
    · exact Or.inr (Or.inl ⟨s, hmem, ⟨i, hi, hid⟩, rfl⟩)
    · exact Or.inr (Or.inr ⟨m, hmem, ⟨i, hi, hid⟩, rfl⟩)

theorem maskAlgorithm_produced (h : CoversNodes d.baseline d.candidate groups.flatten) :
    Produced (maskAlgorithm d groups mask) ↔
      Produced (mergedAlgorithm d.baseline d.candidate (membersOf groups mask)) := by
  rw [maskAlgorithm, subsetAlgorithm]
  by_cases hnil : membersOf groups mask = []
  · rw [if_pos hnil, hnil, mergedAlgorithm_nil]
  rw [if_neg hnil]
  by_cases hall : (List.range groups.length).all mask = true
  · rw [if_pos hall, membersOf_all hall]
    refine (produced_of_perm ?_ ?_).symm
    · refine merged_all h.base_steps h.cand_steps (fun _ _ hst => stepId_eq_of_fields hst) fun k => ?_
      rw [stepsApplied_eq]
      exact h.steps.all k
    · refine merged_all h.base_mounts h.cand_mounts
        (fun _ _ hmm => congrArg MountDump.mountPoint hmm) fun k => ?_
      rw [mountsApplied_eq]
      exact h.mounts.all k
  · rw [if_neg hall]

/-- Every subset of a partition has a producer for each consumed name exactly when each name a node
consumes is kept by all of them, or produced on the node's own side of its group. -/
theorem subsets_produced_iff (h : derive baseline candidate = .ok d)
    (hp : groups.flatten.Perm d.changes) :
    (∀ mask, Produced (maskAlgorithm d groups mask)) ↔
      (sidesOf d groups).SelfContained GraphNode.consumes GraphNode.produces := by
  obtain ⟨hcovers, hn⟩ := coversNodes h hp
  rw [← closed_all_iff]
  constructor
  · intro hall S
    classical
    have hmask := hall fun i => decide (i ∈ S)
    rw [maskAlgorithm_produced hcovers, Produced, mem_maskNodes hcovers hn hp] at hmask
    simpa using hmask
  · intro hall mask
    rw [maskAlgorithm_produced hcovers, Produced, mem_maskNodes hcovers hn hp]
    exact hall _

end Groups

section Example

/-- The area algorithm with its price from a step of another id. -/
def movedAlgorithm : RatingAlgorithm where
  slug := "motor"
  version := 2
  inputContract := [{ name := "area", type := .string }]
  outputs := [{ name := "payable", type := "money_minor" }]
  steps := [
    { stepId := "in", consumes := [], produces := ["area"], kind := .input "area" .error },
    { stepId := "zone_table", consumes := ["area"], produces := ["price"],
      kind := .table (areaTable 1) ["area"] .error .none },
    { stepId := "out", consumes := ["price"], produces := [], kind := .output "payable" ⟨.halfEven, 0⟩ }]
  subGraphs := []
  graph_ok := by decide

def movedVersion : RatingVersion := ⟨some movedAlgorithm, some (pinned [areaTable 1] []), .exact⟩

def movedChanges : Derivation :=
  ⟨areaAlgorithm.toRatingAlgorithmDraft, movedAlgorithm.toRatingAlgorithmDraft,
    deriveChanges areaAlgorithm.toRatingAlgorithmDraft movedAlgorithm.toRatingAlgorithmDraft
      (some (pinned [areaTable 1] [])) (some (pinned [areaTable 1] []))⟩

def movedGroups : List (List Change) := movedChanges.changes.map ([·])

theorem movedGroups_partition : movedGroups.flatten.Perm movedChanges.changes := by
  rw [movedGroups, ← List.flatMap_def, List.flatMap_singleton']

theorem moved_produced_iff :
    (∀ mask, Produced (maskAlgorithm movedChanges movedGroups mask)) ↔
      (sidesOf movedChanges movedGroups).SelfContained GraphNode.consumes GraphNode.produces :=
  @subsets_produced_iff (areaVersion (pinned [areaTable 1] [])) movedVersion movedChanges movedGroups
    rfl movedGroups_partition

/-- The removed step is accepted apart from the added one, and alone leaves the output without its
price: the output is of no change, so no pair is found. -/
theorem moved_accepted_not_produced :
    derive (areaVersion (pinned [areaTable 1] [])) movedVersion = .ok movedChanges ∧
      movedGroups.flatten.Perm movedChanges.changes ∧
      checkDependence movedChanges movedGroups = .ok () ∧
      ¬ Produced (maskAlgorithm movedChanges movedGroups (· = 0)) := by
  refine ⟨rfl, movedGroups_partition, by decide, fun h => ?_⟩
  have hnot : ∀ n ∈ algorithmNodes (maskAlgorithm movedChanges movedGroups (· = 0)),
      "price" ∉ n.produces := by decide
  have hout : (⟨"out", ["price"], []⟩ : GraphNode) ∈
      algorithmNodes (maskAlgorithm movedChanges movedGroups (· = 0)) := by decide
  obtain ⟨n, hn, hx⟩ := h "price" ⟨_, hout, by decide⟩
  exact hnot n hn hx

end Example

end GiPricing.Attribution
