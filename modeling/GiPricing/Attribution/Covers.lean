import GiPricing.Attribution.Changes
import GiPricing.Rating.Accepted

/-! # The items of the derived changes

Every step, mount, input and output that differs is the item of one derived change alone.
-/

namespace GiPricing.Attribution

open Merge

/-! ## The items of the changes -/

/-- The items of the changes, in one part of the algorithm: each difference is one change's. -/
structure Covers (items : Change → List (String × Applied)) (diff : String → Option Applied)
    (changes : List Change) : Prop where
  nodup : ((changes.flatMap items).map Prod.fst).Nodup
  mem : ∀ k a, (k, a) ∈ changes.flatMap items ↔ diff k = some a

def stepItems (c : Change) : List (String × Applied) := (c.stepId.map (·, applied c.kind)).toList

def mountItems (c : Change) : List (String × Applied) := (c.mountPoint.map (·, applied c.kind)).toList

def deltaItem (d : InterfaceDelta) : String × Applied := (d.name, d.change)

def fieldItems (c : Change) : List (String × Applied) := c.fields.map deltaItem

def outputItems (c : Change) : List (String × Applied) := c.outputs.map deltaItem

section Covers

variable {items : Change → List (String × Applied)} {diff : String → Option Applied}
  {changes members : List Change} {S T : Change → Bool} {k : String} {a : Applied}

theorem lastOf_eq_some {l : List (String × Applied)} (h : (l.map Prod.fst).Nodup) :
    lastOf l k = some a ↔ (k, a) ∈ l := by
  rw [lastOf, Dataflow.lookup_eq_some_of_nodup (by rwa [List.map_reverse, List.nodup_reverse]),
    List.mem_reverse]

theorem Covers.nodup_members (h : Covers items diff changes) (hsub : members.Sublist changes) :
    ((members.flatMap items).map Prod.fst).Nodup :=
  h.nodup.sublist ((hsub.flatMap items).map Prod.fst)

theorem Covers.sub (h : Covers items diff changes) (hsub : members.Sublist changes)
    (ha : lastOf (members.flatMap items) k = some a) : diff k = some a := by
  rw [lastOf_eq_some (h.nodup_members hsub)] at ha
  exact (h.mem k a).mp ((hsub.flatMap items).subset ha)

theorem Covers.all (h : Covers items diff changes) (k : String) :
    lastOf (changes.flatMap items) k = diff k := by
  refine Option.ext fun a => ?_
  rw [lastOf_eq_some h.nodup, h.mem]

theorem Covers.eq_of_item (h : Covers items diff changes) {c c' : Change} (hc : c ∈ changes)
    (hc' : c' ∈ changes) {b : Applied} (hk : (k, a) ∈ items c) (hk' : (k, b) ∈ items c') : c = c' := by
  have hpairs := h.nodup
  rw [List.map_flatMap, List.nodup_flatMap] at hpairs
  by_contra hne
  have : Std.Symm (Function.onFun List.Disjoint fun c => (items c).map Prod.fst) :=
    ⟨fun _ _ hd => hd.symm⟩
  have hdisj := hpairs.2.forall hc hc' hne
  exact hdisj (List.mem_map_of_mem hk) (List.mem_map.mpr ⟨_, hk', rfl⟩)

theorem Covers.disjoint (h : Covers items diff changes)
    (hST : ∀ c ∈ changes, ¬ (S c = true ∧ T c = true)) (k : String) :
    lastOf ((changes.filter S).flatMap items) k = none ∨
      lastOf ((changes.filter T).flatMap items) k = none := by
  by_contra hne
  push Not at hne
  obtain ⟨a, ha⟩ := Option.ne_none_iff_exists'.mp hne.1
  obtain ⟨b, hb⟩ := Option.ne_none_iff_exists'.mp hne.2
  rw [lastOf_eq_some (h.nodup_members List.filter_sublist), List.mem_flatMap] at ha hb
  obtain ⟨c, hc, hca⟩ := ha
  obtain ⟨c', hc', hcb⟩ := hb
  rw [List.mem_filter] at hc hc'
  obtain rfl := h.eq_of_item hc.1 hc'.1 hca hcb
  exact hST c hc.1 ⟨hc.2, hc'.2⟩

theorem Covers.union (h : Covers items diff changes)
    (ha : lastOf ((changes.filter fun c => S c || T c).flatMap items) k = some a) :
    lastOf ((changes.filter S).flatMap items) k = some a ∨
      lastOf ((changes.filter T).flatMap items) k = some a := by
  rw [lastOf_eq_some (h.nodup_members List.filter_sublist), List.mem_flatMap] at ha ⊢
  rw [lastOf_eq_some (h.nodup_members List.filter_sublist), List.mem_flatMap]
  obtain ⟨c, hc, hca⟩ := ha
  rw [List.mem_filter, Bool.or_eq_true] at hc
  rcases hc.2 with hS | hT
  · exact Or.inl ⟨c, List.mem_filter.mpr ⟨hc.1, hS⟩, hca⟩
  · exact Or.inr ⟨c, List.mem_filter.mpr ⟨hc.1, hT⟩, hca⟩

theorem Covers.left (h : Covers items diff changes) (hST : ∀ c, S c = true → T c = true)
    (ha : lastOf ((changes.filter S).flatMap items) k = some a) :
    lastOf ((changes.filter T).flatMap items) k = some a := by
  rw [lastOf_eq_some (h.nodup_members List.filter_sublist), List.mem_flatMap] at ha ⊢
  obtain ⟨c, hc, hca⟩ := ha
  rw [List.mem_filter] at hc
  exact ⟨c, List.mem_filter.mpr ⟨hc.1, hST c hc.2⟩, hca⟩

theorem Covers.perm {l : List (String × Applied)} (hp : (changes.flatMap items).Perm l)
    (hn : (l.map Prod.fst).Nodup) (hm : ∀ k a, (k, a) ∈ l ↔ diff k = some a) :
    Covers items diff changes :=
  ⟨((hp.map Prod.fst).nodup_iff).mpr hn, fun k a => hp.mem_iff.trans (hm k a)⟩

end Covers

/-! ## What the diff finds -/

section Diff

variable {k : String} {a : Applied}

theorem mem_sortedSet {l : List String} : k ∈ sortedSet l ↔ k ∈ l := by
  rw [sortedSet, List.mem_insertionSort, List.mem_dedup]

theorem nodup_sortedSet (l : List String) : (sortedSet l).Nodup :=
  (List.perm_insertionSort _ _).nodup_iff.mpr (List.nodup_dedup l)

theorem diffAt_mem {α δ : Type} [DecidableEq δ] {name : α → String} {dump : α → δ}
    {old new : List α} (h : diffAt name dump old new k = some a) :
    k ∈ old.map name ++ new.map name := by
  by_contra hk
  rw [List.mem_append, not_or] at hk
  rw [diffAt, byKey_eq_none.mpr hk.1, byKey_eq_none.mpr hk.2] at h
  cases h

theorem interfaceDeltas_names {α δ : Type} [DecidableEq δ] (name : α → String) (dump : α → δ)
    (old new : List α) : ((interfaceDeltas name dump old new).map (·.name)).Nodup := by
  refine (nodup_sortedSet (old.map name ++ new.map name)).sublist ?_
  rw [interfaceDeltas]
  generalize sortedSet (old.map name ++ new.map name) = l
  induction l with
  | nil => exact .slnil
  | cons n l ih =>
    rw [List.filterMap_cons]
    cases diffAt name dump old new n with
    | none => exact ih.cons n
    | some a => exact ih.cons_cons n

theorem mem_interfaceDeltas {α δ : Type} [DecidableEq δ] {name : α → String} {dump : α → δ}
    {old new : List α} :
    ⟨k, a⟩ ∈ interfaceDeltas name dump old new ↔ diffAt name dump old new k = some a := by
  simp only [interfaceDeltas, List.mem_filterMap, Option.map_eq_some_iff, mem_sortedSet]
  constructor
  · rintro ⟨n, -, b, hb, heq⟩
    obtain ⟨rfl, rfl⟩ := InterfaceDelta.mk.inj heq
    exact hb
  · exact fun h => ⟨k, diffAt_mem h, a, h, rfl⟩

theorem kindFields_keys {o n : StepKind} (h : stepType o = stepType n) :
    (kindFields o).map (·.1) = (kindFields n).map (·.1) := by
  cases o <;> cases n <;> first | rfl | simp [stepType] at h

theorem stepFields_keys_nodup (s : RatingStep) : ((stepFields s).map (·.1)).Nodup := by
  cases hk : s.kind <;> simp [stepFields, kindFields, hk]

theorem fieldOf_type (s : RatingStep) : fieldOf (stepFields s) "type" = .text (stepType s.kind) := by
  simp [fieldOf, stepFields, List.lookup]

theorem eq_of_fieldOf {l l' : List (String × FieldValue)} (hn : (l.map (·.1)).Nodup)
    (hkeys : l.map (·.1) = l'.map (·.1)) (h : ∀ key ∈ l.map (·.1), fieldOf l key = fieldOf l' key) :
    l = l' := by
  have hlength : l.length = l'.length := by
    have := congrArg List.length hkeys
    rwa [List.length_map, List.length_map] at this
  have hvalue : ∀ {m : List (String × FieldValue)} (_ : (m.map (·.1)).Nodup) {p}, p ∈ m →
      fieldOf m p.1 = p.2 := fun hm p hp => by
    rw [fieldOf, (Dataflow.lookup_eq_some_of_nodup hm).mpr hp, Option.getD_some]
  refine List.ext_getElem hlength fun i hi hi' => ?_
  have hfst : l[i].1 = l'[i].1 := by
    have := congrArg (·[i]?) hkeys
    simpa [hi, hi'] using this
  refine Prod.ext hfst ?_
  have hl := hvalue hn (List.getElem_mem hi)
  have hl' := hvalue (hkeys ▸ hn) (List.getElem_mem hi')
  rw [← hl, ← hl', ← hfst]
  exact h _ (List.mem_map_of_mem (List.getElem_mem hi))

theorem changedFields_eq_nil {o n : RatingStep} :
    changedFields o n = [] ↔ stepFields o = stepFields n := by
  rw [changedFields, List.filter_eq_nil_iff]
  constructor
  · intro h
    have hall : ∀ key ∈ (stepFields o).map (·.1),
        fieldOf (stepFields o) key = fieldOf (stepFields n) key := fun key hkey => by
      simpa using h key (mem_sortedSet.mpr (List.mem_append_left _ hkey))
    have htype := hall "type" (by simp [stepFields])
    rw [fieldOf_type, fieldOf_type, FieldValue.text.injEq] at htype
    refine eq_of_fieldOf (stepFields_keys_nodup o) ?_ hall
    simp only [stepFields, List.map_append, kindFields_keys htype]
    rfl
  · intro h key _
    simp [h]

theorem mem_diffSteps_added {old new : List RatingStep} : k ∈ (diffSteps old new).added ↔
    k ∈ new.map RatingStep.stepId ∧ k ∉ old.map RatingStep.stepId := by
  rw [diffSteps, mem_sortedSet, List.mem_filter, decide_eq_true_eq]

theorem mem_diffSteps_removed {old new : List RatingStep} : k ∈ (diffSteps old new).removed ↔
    k ∈ old.map RatingStep.stepId ∧ k ∉ new.map RatingStep.stepId := by
  rw [diffSteps, mem_sortedSet, List.mem_filter, decide_eq_true_eq]

theorem mem_diffSteps_changed {old new : List RatingStep} :
    k ∈ (diffSteps old new).changed.map (·.1) ↔ k ∈ old.map RatingStep.stepId ∧
      k ∈ new.map RatingStep.stepId ∧ changedFieldsAt old new k ≠ [] := by
  simp only [diffSteps, List.mem_map, List.mem_flatMap, mem_sortedSet, List.mem_filter,
    decide_eq_true_eq]
  constructor
  · rintro ⟨_, ⟨sid, ⟨ho, hn⟩, f, hf, rfl⟩, rfl⟩
    exact ⟨ho, hn, List.ne_nil_of_mem hf⟩
  · rintro ⟨ho, hn, hne⟩
    obtain ⟨f, hf⟩ := List.exists_mem_of_ne_nil _ hne
    exact ⟨(k, f), ⟨k, ⟨ho, hn⟩, f, hf, rfl⟩, rfl⟩

theorem stepChange_iff {base cand : List RatingStep} :
    diffAt RatingStep.stepId stepFields base cand k = some a ↔
      (k ∈ (diffSteps base cand).added ∧ a = .added) ∨
      (k ∈ (diffSteps base cand).removed ∧ a = .removed) ∨
      (k ∈ (diffSteps base cand).changed.map (·.1) ∧ a = .changed) := by
  rw [mem_diffSteps_added, mem_diffSteps_removed, mem_diffSteps_changed, diffAt, changedFieldsAt]
  have hmem : ∀ {l : List RatingStep} {s}, byKey RatingStep.stepId l k = some s →
      k ∈ l.map RatingStep.stepId := fun hs => List.mem_map.mpr ⟨_, byKey_eq_some hs⟩
  cases ho : byKey RatingStep.stepId base k with
  | none =>
    have hbase := byKey_eq_none.mp ho
    cases hn : byKey RatingStep.stepId cand k with
    | none => simp [hbase, byKey_eq_none.mp hn]
    | some n => simp [hbase, hmem hn, eq_comm]
  | some o =>
    have hbase := hmem ho
    cases hn : byKey RatingStep.stepId cand k with
    | none => simp [hbase, byKey_eq_none.mp hn, eq_comm]
    | some n =>
      have hcand := hmem hn
      simp only [hbase, hcand, changedFields_eq_nil, ne_eq, not_true_eq_false, and_false, true_and,
        false_and, false_or]
      split_ifs with heq <;> simp [heq, eq_comm]

end Diff

/-! ## The items of the derived changes -/

section Derived

variable {base cand : RatingAlgorithmDraft} {basePins candPins : Option Pins}

theorem flatMap_zipIdx {items : Change → List (String × Applied)} {f : Change × ℕ → Change}
    (hf : ∀ p, items (f p) = items p.1) (l : List Change) (n : ℕ) :
    ((l.zipIdx n).map f).flatMap items = l.flatMap items := by
  induction l generalizing n with
  | nil => rfl
  | cons c l ih => rw [List.zipIdx_cons, List.map_cons, List.flatMap_cons, List.flatMap_cons, hf, ih]

theorem pinChanges_kind {drafts : List Change} {c : Change} (h : c ∈ pinChanges basePins candPins drafts) :
    ∃ p, c = { kind := .pin, pin := some p } := by
  unfold pinChanges at h
  split at h
  · simp only [List.mem_flatMap, List.mem_append, List.mem_map] at h
    obtain ⟨k, -, ⟨r, -, rfl⟩ | ⟨r, -, rfl⟩⟩ := h <;> exact ⟨_, rfl⟩
  · cases h

theorem flatMap_pins (items : Change → List (String × Applied))
    (hpin : ∀ p, items { kind := .pin, pin := some p } = []) {drafts : List Change}
    (r : Change → Change → Prop) [DecidableRel r] :
    ((pinChanges basePins candPins drafts).insertionSort r).flatMap items = [] := by
  refine List.flatMap_eq_nil_iff.mpr fun c hc => ?_
  obtain ⟨p, rfl⟩ := pinChanges_kind ((List.mem_insertionSort r).mp hc)
  exact hpin p

theorem nodeItems_derived {items : Change → List (String × Applied)}
    (hid : ∀ (c : Change) n, items { c with id := n } = items c)
    (hset : ∀ (c : Change) fs os, items { c with fields := fs, outputs := os } = items c)
    (hpin : ∀ p, items { kind := .pin, pin := some p } = [])
    (hfield : ∀ d, items { kind := .inputField, fields := [d] } = [])
    (houtput : ∀ d, items { kind := .output, outputs := [d] } = []) :
    ((deriveChanges base cand basePins candPins).flatMap items).Perm
      ((stepChanges base.steps cand.steps).flatMap items ++
        (mountChanges base.subGraphs cand.subGraphs).flatMap items) := by
  have hsort : (nodeChanges base cand).Perm
      (stepChanges base.steps cand.steps ++ mountChanges base.subGraphs cand.subGraphs) :=
    List.perm_insertionSort _ _
  have hown : ∀ (fs os : List InterfaceDelta),
      ((fs.map fun d => ({ kind := .inputField, fields := [d] } : Change)) ++
        os.map fun d => ({ kind := .output, outputs := [d] } : Change)).flatMap items = [] := by
    intro fs os
    simp [List.flatMap_append, List.flatMap_map, hfield, houtput]
  rw [deriveChanges, flatMap_zipIdx (fun p => hid p.1 p.2), List.flatMap_append, List.flatMap_append,
    flatMap_zipIdx (fun p => hset p.1 _ _), flatMap_pins items hpin, hown, List.append_nil,
    List.append_nil, ← List.flatMap_append]
  exact hsort.flatMap_right items

theorem stepItems_stepChanges : (stepChanges base.steps cand.steps).flatMap stepItems =
    (sortedSet ((diffSteps base.steps cand.steps).added ++ (diffSteps base.steps cand.steps).removed ++
      (diffSteps base.steps cand.steps).changed.map (·.1))).map fun sid =>
        (sid, if sid ∈ (diffSteps base.steps cand.steps).added then .added
          else if sid ∈ (diffSteps base.steps cand.steps).removed then .removed else .changed) := by
  rw [stepChanges, List.flatMap_map]
  refine Eq.trans (List.flatMap_congr fun sid _ => ?_) List.map_eq_flatMap.symm
  simp only [stepItems]
  split_ifs <;> simp [applied]

/-- A mount's change is its difference. -/
theorem mountChange_eq_some {base cand : List SubGraphRef} {point : String} {c : Change}
    (h : mountChange base cand point = some c) : c.stepId = none ∧ c.fields = [] ∧ c.outputs = [] ∧
      c.mountPoint = some point ∧
      diffAt SubGraphRef.mountPoint mountDump base cand point = some (applied c.kind) ∧
      c.pin = none := by
  rw [diffAt]
  simp only [mountChange] at h
  cases ho : byKey SubGraphRef.mountPoint base point with
  | none =>
    cases hn : byKey SubGraphRef.mountPoint cand point with
    | none =>
      rw [ho, hn] at h
      cases h
    | some n =>
      rw [ho, hn] at h
      cases h
      exact ⟨rfl, rfl, rfl, congrArg some (byKey_eq_some hn).2, rfl, rfl⟩
  | some o =>
    cases hn : byKey SubGraphRef.mountPoint cand point with
    | none =>
      rw [ho, hn] at h
      cases h
      exact ⟨rfl, rfl, rfl, congrArg some (byKey_eq_some ho).2, rfl, rfl⟩
    | some n =>
      rw [ho, hn] at h
      dsimp only at h
      split_ifs at h with heq
      cases h
      exact ⟨rfl, rfl, rfl, congrArg some (byKey_eq_some hn).2, if_neg heq, rfl⟩

theorem mountChange_isSome {base cand : List SubGraphRef} {point : String} {a : Applied}
    (h : diffAt SubGraphRef.mountPoint mountDump base cand point = some a) :
    ∃ c, mountChange base cand point = some c ∧ applied c.kind = a := by
  rw [diffAt] at h
  simp only [mountChange]
  cases ho : byKey SubGraphRef.mountPoint base point with
  | none =>
    cases hn : byKey SubGraphRef.mountPoint cand point with
    | none =>
      rw [ho, hn] at h
      cases h
    | some n =>
      rw [ho, hn] at h
      cases h
      exact ⟨_, rfl, rfl⟩
  | some o =>
    cases hn : byKey SubGraphRef.mountPoint cand point with
    | none =>
      rw [ho, hn] at h
      cases h
      exact ⟨_, rfl, rfl⟩
    | some n =>
      rw [ho, hn] at h
      dsimp only at h ⊢
      split_ifs at h with heq
      cases h
      exact ⟨_, if_neg heq, rfl⟩

theorem stepChanges_mountPoint {base cand : List RatingStep} {c : Change}
    (h : c ∈ stepChanges base cand) : c.mountPoint = none ∧ c.fields = [] ∧ c.outputs = [] := by
  obtain ⟨sid, -, rfl⟩ := List.mem_map.mp h
  dsimp only
  split_ifs <;> exact ⟨rfl, rfl, rfl⟩

theorem mem_mountChanges {base cand : List SubGraphRef} {c : Change}
    (h : c ∈ mountChanges base cand) : ∃ point, mountChange base cand point = some c := by
  obtain ⟨point, -, h⟩ := List.mem_filterMap.mp h
  exact ⟨point, h⟩

theorem covers_steps : Covers stepItems (diffAt RatingStep.stepId stepFields base.steps cand.steps)
    (deriveChanges base cand basePins candPins) := by
  have hmounts : (mountChanges base.subGraphs cand.subGraphs).flatMap stepItems = [] := by
    refine List.flatMap_eq_nil_iff.mpr fun c hc => ?_
    obtain ⟨point, h⟩ := mem_mountChanges hc
    rw [stepItems, (mountChange_eq_some h).1, Option.map_none, Option.toList_none]
  have hperm := @nodeItems_derived base cand basePins candPins stepItems (fun _ _ => rfl)
    (fun _ _ _ => rfl) (fun _ => rfl) (fun _ => rfl) fun _ => rfl
  rw [hmounts, List.append_nil, stepItems_stepChanges] at hperm
  refine Covers.perm hperm ?_ fun k a => ?_
  · rw [List.map_map]
    exact (List.map_id _).symm ▸ nodup_sortedSet _
  · have hA := @mem_diffSteps_added k base.steps cand.steps
    have hR := @mem_diffSteps_removed k base.steps cand.steps
    have hC := @mem_diffSteps_changed k base.steps cand.steps
    rw [stepChange_iff]
    generalize (diffSteps base.steps cand.steps).added = added at *
    generalize (diffSteps base.steps cand.steps).removed = removed at *
    generalize (diffSteps base.steps cand.steps).changed.map (·.1) = changed at *
    simp only [List.mem_map, Prod.mk.injEq]
    constructor
    · rintro ⟨sid, hsid, rfl, rfl⟩
      rw [mem_sortedSet, List.mem_append, List.mem_append] at hsid
      split_ifs with hadded hremoved
      · exact Or.inl ⟨hadded, rfl⟩
      · exact Or.inr (Or.inl ⟨hremoved, rfl⟩)
      · exact Or.inr (Or.inr ⟨hsid.resolve_left (not_or.mpr ⟨hadded, hremoved⟩), rfl⟩)
    · rintro (⟨h, rfl⟩ | ⟨h, rfl⟩ | ⟨h, rfl⟩)
      · exact ⟨k, mem_sortedSet.mpr (List.mem_append_left _ (List.mem_append_left _ h)), rfl, if_pos h⟩
      · refine ⟨k, mem_sortedSet.mpr (List.mem_append_left _ (List.mem_append_right _ h)), rfl, ?_⟩
        rw [if_neg fun ha => (hR.mp h).2 (hA.mp ha).1, if_pos h]
      · refine ⟨k, mem_sortedSet.mpr (List.mem_append_right _ h), rfl, ?_⟩
        rw [if_neg fun ha => (hA.mp ha).2 (hC.mp h).1, if_neg fun hr => (hR.mp hr).2 (hC.mp h).2.1]

theorem mountItems_mountChanges {base cand : List SubGraphRef} :
    ((mountChanges base cand).flatMap mountItems).map Prod.fst =
      ((sortedSet (base.map SubGraphRef.mountPoint ++ cand.map SubGraphRef.mountPoint)).filter
        fun point => (mountChange base cand point).isSome) := by
  rw [mountChanges]
  generalize sortedSet (base.map SubGraphRef.mountPoint ++ cand.map SubGraphRef.mountPoint) = l
  induction l with
  | nil => rfl
  | cons point l ih =>
    rw [List.filterMap_cons, List.filter_cons]
    cases h : mountChange base cand point with
    | none => simpa using ih
    | some c =>
      rw [List.flatMap_cons, List.map_append, ih, mountItems, (mountChange_eq_some h).2.2.2.1]
      rfl

theorem covers_mounts :
    Covers mountItems (diffAt SubGraphRef.mountPoint mountDump base.subGraphs cand.subGraphs)
      (deriveChanges base cand basePins candPins) := by
  have hsteps : (stepChanges base.steps cand.steps).flatMap mountItems = [] := by
    refine List.flatMap_eq_nil_iff.mpr fun c hc => ?_
    rw [mountItems, (stepChanges_mountPoint hc).1]
    rfl
  have hperm := @nodeItems_derived base cand basePins candPins mountItems (fun _ _ => rfl)
    (fun _ _ _ => rfl) (fun _ => rfl) (fun _ => rfl) fun _ => rfl
  rw [hsteps, List.nil_append] at hperm
  refine Covers.perm hperm ?_ fun k a => ?_
  · rw [mountItems_mountChanges]
    exact (nodup_sortedSet _).filter _
  · rw [List.mem_flatMap]
    constructor
    · rintro ⟨c, hc, hk⟩
      obtain ⟨point, h⟩ := mem_mountChanges hc
      obtain ⟨-, -, -, hpoint, hdiff, -⟩ := mountChange_eq_some h
      rw [mountItems, hpoint] at hk
      obtain ⟨rfl, rfl⟩ := Prod.mk.inj (List.mem_singleton.mp hk)
      exact hdiff
    · intro h
      obtain ⟨c, hc, rfl⟩ := mountChange_isSome h
      refine ⟨c, List.mem_filterMap.mpr ⟨k, mem_sortedSet.mpr (diffAt_mem h), hc⟩, ?_⟩
      rw [mountItems, (mountChange_eq_some hc).2.2.2.1]
      exact List.mem_singleton_self _

theorem reader_lt {drafts : List Change} {reads : RatingStep → String → Bool} {d : InterfaceDelta}
    {i : ℕ} (h : reader drafts reads d = some i) : i < drafts.length := by
  rw [reader] at h
  split at h
  · rename_i j hreaders
    cases h
    have hmem : i ∈ [i] := List.mem_singleton_self i
    rw [← hreaders, List.mem_filterMap] at hmem
    obtain ⟨⟨c, j⟩, hp, hbind⟩ := hmem
    obtain ⟨s, -, hs⟩ := Option.bind_eq_some_iff.mp hbind
    split_ifs at hs
    cases hs
    simpa using List.snd_lt_of_mem_zipIdx hp
  · cases h

theorem attached_perm {drafts : List Change} {deltas : List InterfaceDelta}
    {reads : RatingStep → String → Bool} (hn : deltas.Nodup) :
    ((drafts.zipIdx.flatMap fun p => deltas.filter fun d => reader drafts reads d = some p.2) ++
      deltas.filter fun d => reader drafts reads d = none).Perm deltas := by
  have hrange : (drafts.zipIdx.flatMap fun p => deltas.filter fun d => reader drafts reads d = some p.2) =
      (List.range drafts.length).flatMap fun i => deltas.filter fun d => reader drafts reads d = some i := by
    rw [List.range_eq_range', ← List.zipIdx_map_snd 0 drafts, List.flatMap_map]
  rw [hrange]
  refine (List.perm_ext_iff_of_nodup ?_ hn).mpr fun d => ?_
  · rw [List.nodup_append', List.nodup_flatMap]
    refine ⟨⟨fun i _ => hn.filter _, ?_⟩, hn.filter _, ?_⟩
    · refine List.nodup_range.imp fun hij => ?_
      intro d hd hd'
      simp only [List.mem_filter, decide_eq_true_eq] at hd hd'
      exact hij (Option.some.inj (hd.2.symm.trans hd'.2))
    · intro d hd hd'
      simp only [List.mem_flatMap, List.mem_filter, decide_eq_true_eq] at hd hd'
      obtain ⟨i, -, -, hi⟩ := hd
      rw [hd'.2] at hi
      cases hi
  · simp only [List.mem_append, List.mem_flatMap, List.mem_filter, decide_eq_true_eq, List.mem_range]
    constructor
    · rintro (⟨_, _, hd, _⟩ | ⟨hd, _⟩) <;> exact hd
    · intro hd
      cases hr : reader drafts reads d with
      | none => exact Or.inr ⟨hd, rfl⟩
      | some i => exact Or.inl ⟨i, reader_lt hr, hd, rfl⟩

theorem flatMap_nil (l : List InterfaceDelta) :
    (l.flatMap fun _ => ([] : List (String × Applied))) = [] :=
  List.flatMap_eq_nil_iff.mpr fun _ _ => rfl

theorem covers_deltas {α δ : Type} [DecidableEq δ] {name : α → String} {dump : α → δ}
    {old new : List α} {items : Change → List (String × Applied)} {changes : List Change}
    (drafts : List Change) (reads : RatingStep → String → Bool)
    (h : changes.flatMap items =
      (drafts.zipIdx.flatMap fun p => ((interfaceDeltas name dump old new).filter fun d =>
        reader drafts reads d = some p.2).map deltaItem) ++
      ((interfaceDeltas name dump old new).filter fun d => reader drafts reads d = none).map deltaItem) :
    Covers items (diffAt name dump old new) changes := by
  have hnames := interfaceDeltas_names name dump old new
  have hperm : (changes.flatMap items).Perm ((interfaceDeltas name dump old new).map deltaItem) := by
    rw [h, ← List.map_flatMap, ← List.map_append]
    exact (attached_perm hnames.of_map).map deltaItem
  refine Covers.perm hperm ?_ fun k a => ?_
  · rw [List.map_map]
    exact hnames
  · have hmem : ⟨k, a⟩ ∈ interfaceDeltas name dump old new ↔ _ := mem_interfaceDeltas
    rw [← hmem, List.mem_map]
    constructor
    · rintro ⟨d, hd, heq⟩
      obtain ⟨rfl, rfl⟩ := Prod.mk.inj heq
      exact hd
    · exact fun hd => ⟨_, hd, rfl⟩

theorem covers_fields :
    Covers fieldItems
      (diffAt InputContractField.name fieldDump base.inputContract cand.inputContract)
      (deriveChanges base cand basePins candPins) := by
  have hid : ∀ (c : Change) n, fieldItems { c with id := n } = fieldItems c := fun _ _ => rfl
  refine covers_deltas (nodeChanges base cand) readsInput ?_
  rw [deriveChanges, flatMap_zipIdx (fun p => hid p.1 p.2), List.flatMap_append, List.flatMap_append,
    flatMap_pins fieldItems fun _ => rfl, List.append_nil, List.flatMap_append,
    List.flatMap_map, List.flatMap_map, List.flatMap_map, List.map_eq_flatMap]
  simp [fieldItems, flatMap_nil]

theorem covers_outputs :
    Covers outputItems (diffAt AlgorithmOutput.name id base.outputs cand.outputs)
      (deriveChanges base cand basePins candPins) := by
  have hid : ∀ (c : Change) n, outputItems { c with id := n } = outputItems c := fun _ _ => rfl
  refine covers_deltas (nodeChanges base cand) readsOutput ?_
  rw [deriveChanges, flatMap_zipIdx (fun p => hid p.1 p.2), List.flatMap_append, List.flatMap_append,
    flatMap_pins outputItems fun _ => rfl, List.append_nil, List.flatMap_append,
    List.flatMap_map, List.flatMap_map, List.flatMap_map, List.map_eq_flatMap]
  simp [outputItems, flatMap_nil]

end Derived

end GiPricing.Attribution
