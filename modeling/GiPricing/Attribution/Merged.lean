import GiPricing.Attribution.Covers

/-! # Merging the derived changes

All the changes together turn the baseline into the candidate, and sets of changes compose, where
the names of the algorithms are unique and the pins list what they name.
-/

namespace GiPricing.Attribution

open Merge

/-! ## Merged algorithms -/

/-- Two algorithms with the same steps, mounts, inputs and outputs, up to order. -/
structure SameAlgorithm (a b : RatingAlgorithmDraft) : Prop where
  steps : (a.steps.map stepFields).Perm (b.steps.map stepFields)
  mounts : (a.subGraphs.map mountDump).Perm (b.subGraphs.map mountDump)
  inputContract : (a.inputContract.map fieldDump).Perm (b.inputContract.map fieldDump)
  outputs : a.outputs.Perm b.outputs

/-- The keys of the four parts are unique. -/
structure UniqueKeys (a : RatingAlgorithmDraft) : Prop where
  steps : (a.steps.map RatingStep.stepId).Nodup
  mounts : (a.subGraphs.map SubGraphRef.mountPoint).Nodup
  inputContract : (a.inputContract.map InputContractField.name).Nodup
  outputs : (a.outputs.map AlgorithmOutput.name).Nodup

/-- Uniqueness of names that saving an algorithm does not ask for. -/
structure UniqueNames (a : RatingAlgorithmDraft) : Prop where
  inputContract : (a.inputContract.map InputContractField.name).Nodup
  outputs : (a.outputs.map AlgorithmOutput.name).Nodup

theorem UniqueNames.keys {a : RatingAlgorithm} (h : UniqueNames a.toRatingAlgorithmDraft) :
    UniqueKeys a.toRatingAlgorithmDraft := by
  have hids := (graphInvariantIssues_eq_nil.mp a.graph_ok).ids_nodup
  rw [List.nodup_append] at hids
  exact ⟨hids.1, hids.2.1, h.inputContract, h.outputs⟩

theorem SameAlgorithm.refl (a : RatingAlgorithmDraft) : SameAlgorithm a a :=
  ⟨.refl _, .refl _, .refl _, .refl _⟩

theorem SameAlgorithm.symm {a b : RatingAlgorithmDraft} (h : SameAlgorithm a b) :
    SameAlgorithm b a :=
  ⟨h.steps.symm, h.mounts.symm, h.inputContract.symm, h.outputs.symm⟩

theorem SameAlgorithm.trans {a b c : RatingAlgorithmDraft} (h : SameAlgorithm a b)
    (h' : SameAlgorithm b c) : SameAlgorithm a c :=
  ⟨h.steps.trans h'.steps, h.mounts.trans h'.mounts, h.inputContract.trans h'.inputContract,
    h.outputs.trans h'.outputs⟩

section Merged

variable {base cand : RatingAlgorithmDraft} {basePins candPins : Option Pins} {S T : Change → Bool}

theorem stepsApplied_eq (members : List Change) :
    stepsApplied members = lastOf (members.flatMap stepItems) := by
  rw [stepsApplied, List.filterMap_eq_flatMap_toList]
  rfl

theorem mountsApplied_eq (members : List Change) :
    mountsApplied members = lastOf (members.flatMap mountItems) := by
  rw [mountsApplied, List.filterMap_eq_flatMap_toList]
  rfl

theorem stepId_eq_of_fields {s t : RatingStep} (h : stepFields s = stepFields t) :
    s.stepId = t.stepId := by
  simp only [stepFields, List.cons_append, List.cons.injEq, Prod.mk.injEq, FieldValue.text.injEq] at h
  exact h.1.2

theorem name_eq_of_dump {f g : InputContractField} (h : fieldDump f = fieldDump g) :
    f.name = g.name :=
  congrArg (fun d => d.1.name) h

theorem mergedAlgorithm_nil : mergedAlgorithm base cand [] = base := by
  rw [mergedAlgorithm]
  simp only [stepsApplied, mountsApplied, fieldsApplied, outputsApplied, List.filterMap_nil,
    List.flatMap_nil, show lastOf [] = fun _ => none from rfl, merged_none]

theorem mergedAlgorithm_all (hb : UniqueKeys base) (hc : UniqueKeys cand) :
    SameAlgorithm (mergedAlgorithm base cand (deriveChanges base cand basePins candPins)) cand := by
  refine ⟨?_, ?_, ?_, ?_⟩
  · refine merged_all hb.steps hc.steps (fun _ _ h => stepId_eq_of_fields h) fun k => ?_
    rw [stepsApplied_eq]
    exact covers_steps.all k
  · refine merged_all hb.mounts hc.mounts (fun _ _ h => congrArg MountDump.mountPoint h) fun k => ?_
    rw [mountsApplied_eq]
    exact covers_mounts.all k
  · refine merged_all hb.inputContract hc.inputContract (fun _ _ h => name_eq_of_dump h) fun k => ?_
    exact covers_fields.all k
  · rw [← List.map_id (mergedAlgorithm base cand _).outputs, ← List.map_id cand.outputs]
    refine merged_all hb.outputs hc.outputs (fun _ _ h => congrArg AlgorithmOutput.name h) fun k => ?_
    exact covers_outputs.all k

theorem Covers.merged_union {α δ : Type} [DecidableEq δ] {key : α → String} {dump : α → δ}
    {items : Change → List (String × Applied)} {changes : List Change} {old new : List α}
    (h : Covers items (diffAt key dump old new) changes)
    (ho : (old.map key).Nodup) (hn : (new.map key).Nodup)
    (hST : ∀ c ∈ changes, ¬ (S c = true ∧ T c = true)) :
    (merged key (merged key old new (lastOf ((changes.filter S).flatMap items))) new
      (lastOf ((changes.filter T).flatMap items))).Perm
      (merged key old new (lastOf ((changes.filter fun c => S c || T c).flatMap items))) := by
  refine Merge.merged_union (applies_of_diff ho hn fun k a => h.sub List.filter_sublist) ?_ ?_
    (h.disjoint hST) fun k a => h.union
  · exact fun k a => h.left fun c hc => by rw [hc, Bool.true_or]
  · exact fun k a => h.left fun c hc => by rw [hc, Bool.or_true]

theorem mergedAlgorithm_union (hb : UniqueKeys base) (hc : UniqueKeys cand) {changes : List Change}
    (hchanges : changes = deriveChanges base cand basePins candPins)
    (hST : ∀ c ∈ changes, ¬ (S c = true ∧ T c = true)) :
    SameAlgorithm
      (mergedAlgorithm (mergedAlgorithm base cand (changes.filter S)) cand (changes.filter T))
      (mergedAlgorithm base cand (changes.filter fun c => S c || T c)) := by
  rw [hchanges] at hST ⊢
  refine ⟨?_, ?_, ?_, ?_⟩
  · simp only [mergedAlgorithm, stepsApplied_eq]
    exact (covers_steps.merged_union hb.steps hc.steps hST).map _
  · simp only [mergedAlgorithm, mountsApplied_eq]
    exact (covers_mounts.merged_union hb.mounts hc.mounts hST).map _
  · exact (covers_fields.merged_union hb.inputContract hc.inputContract hST).map _
  · exact covers_outputs.merged_union hb.outputs hc.outputs hST

end Merged

/-! ## Merged pins -/

section Pins

variable {base cand : RatingAlgorithmDraft} {before after : Pins} {k : PinKind} {r : ArtifactRef}

/-- The pins list every reference the algorithms name, and each reference under one kind. -/
structure WellPinned (base cand : RatingAlgorithmDraft) (before after : Pins) : Prop where
  base_pinned : ∀ k, ∀ r ∈ needed base k, r ∈ before k
  cand_pinned : ∀ k, ∀ r ∈ needed cand k, r ∈ after k
  one_kind : ∀ r k k', r ∈ before k ∨ r ∈ after k → r ∈ before k' ∨ r ∈ after k' → k = k'

theorem mem_needed {a : RatingAlgorithmDraft} : r ∈ needed a k ↔
    (∃ s ∈ a.steps, stepRef s = some (k, r)) ∨ k = .subGraphs ∧ ∃ m ∈ a.subGraphs, m.ref = r := by
  rw [needed, List.mem_append]
  refine or_congr ?_ ?_
  · simp only [List.mem_filterMap, Option.ite_none_right_eq_some, Option.some.injEq]
    constructor
    · rintro ⟨⟨k', r'⟩, ⟨s, hs, h⟩, rfl, rfl⟩
      exact ⟨s, hs, h⟩
    · rintro ⟨s, hs, h⟩
      exact ⟨(k, r), ⟨s, hs, h⟩, rfl, rfl⟩
  · split_ifs with hk
    · simp [hk]
    · simp [hk]

theorem stepRef_of_fields {s t : RatingStep} (h : stepFields s = stepFields t) :
    stepRef s = stepRef t := by
  simp only [stepFields, List.cons_append, List.nil_append, List.cons.injEq, Prod.mk.injEq, true_and,
    FieldValue.text.injEq] at h
  obtain ⟨-, -, -, -, -, htype, hkind⟩ := h
  rw [stepRef, stepRef]
  cases hs : s.kind <;> cases ht : t.kind <;> rw [hs, ht] at htype hkind <;>
    first | rfl | (simp [stepType] at htype; done) | skip
  all_goals simp only [kindFields, List.cons.injEq, Prod.mk.injEq, true_and] at hkind
  case lookup.lookup => rw [FieldValue.ref.inj hkind.1]
  case table.table => rw [FieldValue.ref.inj hkind.1]
  case modelCall.modelCall target _ _ _ target' _ _ _ =>
    cases target <;> cases target' <;> simp [ModelTarget.ref] at hkind ⊢
    · exact hkind.1
    · exact hkind.1

/-- The same algorithms name the same references. -/
theorem SameAlgorithm.needed {a b : RatingAlgorithmDraft} (h : SameAlgorithm a b) :
    r ∈ needed a k ↔ r ∈ needed b k := by
  have hsteps : ∀ {a b : RatingAlgorithmDraft}, SameAlgorithm a b →
      r ∈ Attribution.needed a k → r ∈ Attribution.needed b k := by
    intro a b h
    rw [mem_needed, mem_needed]
    rintro (⟨s, hs, href⟩ | ⟨hk, m, hm, href⟩)
    · obtain ⟨t, ht, hst⟩ := List.mem_map.mp (h.steps.mem_iff.mp (List.mem_map_of_mem hs))
      exact Or.inl ⟨t, ht, (stepRef_of_fields hst).trans href⟩
    · obtain ⟨n, hn, hmn⟩ := List.mem_map.mp (h.mounts.mem_iff.mp (List.mem_map_of_mem hm))
      exact Or.inr ⟨hk, n, hn, (congrArg MountDump.ref hmn).trans href⟩
  exact ⟨hsteps h, hsteps h.symm⟩

theorem mem_pinsOf {members : List Change} {added : Bool} :
    r ∈ pinsOf members added k ↔ ∃ c ∈ members, c.pin = some (k, r, added) := by
  simp only [pinsOf, List.mem_filterMap, Option.bind_eq_some_iff, Option.ite_none_right_eq_some,
    Option.some.injEq]
  constructor
  · rintro ⟨c, hc, ⟨k', r', b⟩, hp, ⟨rfl, rfl⟩, rfl⟩
    exact ⟨c, hc, hp⟩
  · rintro ⟨c, hc, hp⟩
    exact ⟨c, hc, _, hp, ⟨rfl, rfl⟩, rfl⟩

theorem nodeChanges_pin {c : Change} (h : c ∈ nodeChanges base cand) : c.pin = none := by
  rw [nodeChanges, List.mem_insertionSort, List.mem_append] at h
  rcases h with h | h
  · obtain ⟨sid, -, rfl⟩ := List.mem_map.mp h
    dsimp only
    split_ifs <;> rfl
  · obtain ⟨point, h⟩ := mem_mountChanges h
    exact (mountChange_eq_some h).2.2.2.2.2

theorem exists_numbered {l : List Change} {c : Change} (hc : c ∈ l)
    {p : Option (PinKind × ArtifactRef × Bool)} (hp : c.pin = p) :
    ∃ c ∈ (l.zipIdx 1).map fun (c, n) => { c with id := n }, c.pin = p := by
  rw [← List.zipIdx_map_fst 1 l] at hc
  obtain ⟨q, hq, rfl⟩ := List.mem_map.mp hc
  exact ⟨_, List.mem_map_of_mem hq, hp⟩

/-- The pins of the derived changes are the differences that no changed node names. -/
theorem mem_pinsOf_derived {added : Bool} :
    r ∈ pinsOf (deriveChanges base cand (some before) (some after)) added k ↔
      (if added then r ∈ after k ∧ r ∉ before k else r ∈ before k ∧ r ∉ after k) ∧
        r ∉ namedRefs (nodeChanges base cand) := by
  rw [mem_pinsOf]
  constructor
  · rintro ⟨c, hc, hp⟩
    obtain ⟨⟨c', n⟩, hc', rfl⟩ := List.mem_map.mp hc
    have hmem := List.fst_mem_of_mem_zipIdx hc'
    simp only [List.mem_append, List.mem_map, List.mem_insertionSort] at hmem
    rcases hmem with (⟨⟨c, i⟩, hci, rfl⟩ | hpin) | ⟨d, -, rfl⟩ | ⟨d, -, rfl⟩
    · have := nodeChanges_pin (List.fst_mem_of_mem_zipIdx hci)
      rw [show c.pin = some (k, r, added) from hp] at this
      cases this
    · simp only [pinChanges, List.mem_flatMap, List.mem_append, List.mem_map, List.mem_filter,
        decide_eq_true_eq] at hpin
      obtain ⟨k', -, ⟨r', ⟨hr, hne, hnamed⟩, rfl⟩ | ⟨r', ⟨hr, hne, hnamed⟩, rfl⟩⟩ := hpin <;>
        cases hp
      · exact ⟨⟨hr, hne⟩, hnamed⟩
      · exact ⟨⟨hr, hne⟩, hnamed⟩
    · cases hp
    · cases hp
  · rintro ⟨hr, hnamed⟩
    have hpin : ({ kind := .pin, pin := some (k, r, added) } : Change) ∈
        pinChanges (some before) (some after) (nodeChanges base cand) := by
      simp only [pinChanges, List.mem_flatMap, List.mem_append, List.mem_map, List.mem_filter,
        decide_eq_true_eq]
      refine ⟨k, by cases k <;> decide, ?_⟩
      cases added with
      | false => exact Or.inl ⟨r, ⟨hr.1, hr.2, hnamed⟩, rfl⟩
      | true => exact Or.inr ⟨r, ⟨hr.1, hr.2, hnamed⟩, rfl⟩
    rw [deriveChanges]
    refine exists_numbered (c := { kind := .pin, pin := some (k, r, added) }) ?_ rfl
    exact List.mem_append_left _ (List.mem_append_right _ ((List.mem_insertionSort _).mpr hpin))

theorem mem_mergedPins {a : RatingAlgorithmDraft} {members : List Change}
    (hremoved : ∀ r ∈ pinsOf members false k, r ∉ after k) :
    r ∈ mergedPins before after a members k ↔
      r ∈ needed a k ∨ r ∈ pinsOf members true k ∨ r ∈ before k ∧ r ∈ after k := by
  simp only [mergedPins, List.mem_append, List.mem_eraseDups, List.mem_filter, List.mem_insertionSort,
    List.mem_dedup, decide_eq_true_eq]
  constructor
  · rintro (⟨hbefore, -, hafter | hneeded⟩ | ⟨hneeded, -⟩ | ⟨hadded, -⟩)
    · exact Or.inr (Or.inr ⟨hbefore, hafter⟩)
    · exact Or.inl hneeded
    · exact Or.inl hneeded
    · exact Or.inr (Or.inl hadded)
  · intro h
    by_cases hkept : r ∈ before k ∧ r ∉ pinsOf members false k ∧ (r ∈ after k ∨ r ∈ needed a k)
    · exact Or.inl hkept
    · rcases h with hneeded | hadded | ⟨hbefore, hafter⟩
      · exact Or.inr (Or.inl ⟨hneeded, hkept⟩)
      · exact Or.inr (Or.inr ⟨hadded, hkept⟩)
      · exact absurd ⟨hbefore, fun hr => hremoved r hr hafter, Or.inl hafter⟩ hkept

/-- What a first set of changes names is pinned in the baseline or named after a second one. -/
theorem needed_first (hb : UniqueKeys base) (hc : UniqueKeys cand) {basePins candPins : Option Pins}
    {S T : Change → Bool} {changes : List Change}
    (hchanges : changes = deriveChanges base cand basePins candPins)
    (h : r ∈ needed (mergedAlgorithm base cand (changes.filter S)) k) :
    r ∈ needed base k ∨
      r ∈ needed (mergedAlgorithm base cand (changes.filter fun c => S c || T c)) k := by
  rw [hchanges] at h ⊢
  have hsteps : ∀ R : Change → Bool, Applies RatingStep.stepId base.steps cand.steps
      (stepsApplied ((deriveChanges base cand basePins candPins).filter R)) := fun R => by
    rw [stepsApplied_eq]
    exact applies_of_diff hb.steps hc.steps fun k a => covers_steps.sub List.filter_sublist
  have hmounts : ∀ R : Change → Bool, Applies SubGraphRef.mountPoint base.subGraphs cand.subGraphs
      (mountsApplied ((deriveChanges base cand basePins candPins).filter R)) := fun R => by
    rw [mountsApplied_eq]
    exact applies_of_diff hb.mounts hc.mounts fun k a => covers_mounts.sub List.filter_sublist
  rw [mem_needed] at h
  simp only [mem_needed, mergedAlgorithm, mem_merged (hsteps _), mem_merged (hmounts _)] at h ⊢
  rcases h with ⟨s, ⟨hs, -⟩ | ⟨hs, happ⟩, href⟩ | ⟨hk, m, ⟨hm, -⟩ | ⟨hm, happ⟩, href⟩
  · exact Or.inl (Or.inl ⟨s, hs, href⟩)
  · refine Or.inr (Or.inl ⟨s, Or.inr ⟨hs, ?_⟩, href⟩)
    rw [stepsApplied_eq] at happ ⊢
    obtain ⟨a, ha⟩ := Option.ne_none_iff_exists'.mp happ
    rw [covers_steps.left (fun c hc => by rw [hc, Bool.true_or]) ha]
    exact Option.some_ne_none a
  · exact Or.inl (Or.inr ⟨hk, m, hm, href⟩)
  · refine Or.inr (Or.inr ⟨hk, m, Or.inr ⟨hm, ?_⟩, href⟩)
    rw [mountsApplied_eq] at happ ⊢
    obtain ⟨a, ha⟩ := Option.ne_none_iff_exists'.mp happ
    rw [covers_mounts.left (fun c hc => by rw [hc, Bool.true_or]) ha]
    exact Option.some_ne_none a

/-- A change holds the step, or the mount, of each side. -/
structure OfSides (base cand : RatingAlgorithmDraft) (c : Change) : Prop where
  oldStep : ∀ s ∈ c.oldStep, s ∈ base.steps
  newStep : ∀ s ∈ c.newStep, s ∈ cand.steps
  oldMount : ∀ m ∈ c.oldMount, m ∈ base.subGraphs
  newMount : ∀ m ∈ c.newMount, m ∈ cand.subGraphs

theorem nodeChanges_sides {c : Change} (h : c ∈ nodeChanges base cand) : OfSides base cand c := by
  have hnone : ∀ {α : Type} {p : α → Prop}, ∀ x ∈ (none : Option α), p x :=
    fun x hx => absurd hx (Option.not_mem_none x)
  rw [nodeChanges, List.mem_insertionSort, List.mem_append] at h
  rcases h with h | h
  · obtain ⟨sid, -, rfl⟩ := List.mem_map.mp h
    dsimp only
    split_ifs
    · exact ⟨hnone, fun s hs => (byKey_eq_some hs).1, hnone, hnone⟩
    · exact ⟨fun s hs => (byKey_eq_some hs).1, hnone, hnone, hnone⟩
    all_goals exact ⟨fun s hs => (byKey_eq_some hs).1, fun s hs => (byKey_eq_some hs).1, hnone, hnone⟩
  · obtain ⟨point, h⟩ := mem_mountChanges h
    simp only [mountChange] at h
    cases ho : byKey SubGraphRef.mountPoint base.subGraphs point with
    | none =>
      cases hn : byKey SubGraphRef.mountPoint cand.subGraphs point with
      | none =>
        rw [ho, hn] at h
        cases h
      | some n =>
        rw [ho, hn] at h
        cases h
        exact ⟨hnone, hnone, hnone, fun m hm => Option.some.inj hm ▸ (byKey_eq_some hn).1⟩
    | some o =>
      cases hn : byKey SubGraphRef.mountPoint cand.subGraphs point with
      | none =>
        rw [ho, hn] at h
        cases h
        exact ⟨hnone, hnone, fun m hm => Option.some.inj hm ▸ (byKey_eq_some ho).1, hnone⟩
      | some n =>
        rw [ho, hn] at h
        dsimp only at h
        split_ifs at h with heq
        cases h
        exact ⟨hnone, hnone, fun m hm => Option.some.inj hm ▸ (byKey_eq_some ho).1,
          fun m hm => Option.some.inj hm ▸ (byKey_eq_some hn).1⟩

theorem mem_namedRefs (h : r ∈ namedRefs (nodeChanges base cand)) :
    ∃ k, r ∈ needed base k ∨ r ∈ needed cand k := by
  obtain ⟨c, hc, hr⟩ := List.mem_flatMap.mp h
  have hsides := nodeChanges_sides hc
  simp only [List.mem_append, List.mem_map, List.mem_filterMap, Option.mem_toList] at hr
  rcases hr with ⟨⟨k, r'⟩, ⟨s, hs, href⟩, rfl⟩ | ⟨m, hm, rfl⟩
  · refine ⟨k, ?_⟩
    rcases hs with hs | hs
    · exact Or.inl (mem_needed.mpr (Or.inl ⟨s, hsides.oldStep s hs, href⟩))
    · exact Or.inr (mem_needed.mpr (Or.inl ⟨s, hsides.newStep s hs, href⟩))
  · refine ⟨.subGraphs, ?_⟩
    rcases hm with hm | hm
    · exact Or.inl (mem_needed.mpr (Or.inr ⟨rfl, m, hsides.oldMount m hm, rfl⟩))
    · exact Or.inr (mem_needed.mpr (Or.inr ⟨rfl, m, hsides.newMount m hm, rfl⟩))

theorem needed_of_named (hpins : WellPinned base cand before after)
    (hpinned : r ∈ before k ∨ r ∈ after k) (h : r ∈ namedRefs (nodeChanges base cand)) :
    r ∈ needed base k ∨ r ∈ needed cand k := by
  obtain ⟨k', hk'⟩ := mem_namedRefs h
  have hside : r ∈ before k' ∨ r ∈ after k' :=
    hk'.imp (hpins.base_pinned k' r) (hpins.cand_pinned k' r)
  rwa [hpins.one_kind r k k' hpinned hside]

theorem mem_after (hpins : WellPinned base cand before after) :
    r ∈ after k ↔ r ∈ needed cand k ∨
      r ∈ pinsOf (deriveChanges base cand (some before) (some after)) true k ∨
        r ∈ before k ∧ r ∈ after k := by
  rw [mem_pinsOf_derived]
  constructor
  · intro hafter
    by_cases hbefore : r ∈ before k
    · exact Or.inr (Or.inr ⟨hbefore, hafter⟩)
    · by_cases hnamed : r ∈ namedRefs (nodeChanges base cand)
      · rcases needed_of_named hpins (Or.inr hafter) hnamed with h | h
        · exact absurd (hpins.base_pinned k r h) hbefore
        · exact Or.inl h
      · exact Or.inr (Or.inl ⟨⟨hafter, hbefore⟩, hnamed⟩)
  · rintro (h | ⟨⟨h, -⟩, -⟩ | ⟨-, h⟩)
    · exact hpins.cand_pinned k r h
    · exact h
    · exact h

end Pins

/-! ## Merging sets of changes -/

def mergeAlgorithm (d : Derivation) (S : Change → Bool) : RatingAlgorithmDraft :=
  subsetAlgorithm d (d.changes.filter S) (d.changes.all S)

def mergePins (d : Derivation) (before after : Pins) (S : Change → Bool) : Pins :=
  subsetPins before after (mergeAlgorithm d S) (d.changes.filter S) (d.changes.all S)

section Sets

variable {baseline candidate : RatingVersion} {d : Derivation} {before after : Pins}
  {S T : Change → Bool} {k : PinKind} {r : ArtifactRef}

theorem all_congr (h : ∀ c ∈ d.changes, S c = T c) : d.changes.all S = d.changes.all T := by
  rw [Bool.eq_iff_iff, List.all_eq_true, List.all_eq_true]
  exact forall₂_congr fun c hc => by rw [h c hc]

theorem mergeAlgorithm_congr (h : ∀ c ∈ d.changes, S c = T c) :
    mergeAlgorithm d S = mergeAlgorithm d T := by
  rw [mergeAlgorithm, mergeAlgorithm, List.filter_congr h, all_congr h]

theorem mergePins_congr (h : ∀ c ∈ d.changes, S c = T c) :
    mergePins d before after S = mergePins d before after T := by
  rw [mergePins, mergePins, mergeAlgorithm_congr h, List.filter_congr h, all_congr h]

theorem mergeAlgorithm_of_not_all (h : d.changes.all S = false) :
    mergeAlgorithm d S = mergedAlgorithm d.baseline d.candidate (d.changes.filter S) := by
  rw [mergeAlgorithm, subsetAlgorithm, h]
  by_cases hnil : d.changes.filter S = []
  · rw [if_pos hnil, hnil, mergedAlgorithm_nil]
  · rw [if_neg hnil, if_neg Bool.false_ne_true]

theorem mergeAlgorithm_same (hb : UniqueKeys d.baseline) (hc : UniqueKeys d.candidate)
    {basePins candPins : Option Pins}
    (hd : d.changes = deriveChanges d.baseline d.candidate basePins candPins) :
    SameAlgorithm (mergeAlgorithm d S)
      (mergedAlgorithm d.baseline d.candidate (d.changes.filter S)) := by
  cases hall : d.changes.all S with
  | false => exact mergeAlgorithm_of_not_all hall ▸ .refl _
  | true =>
    have hfilter : d.changes.filter S = d.changes := List.filter_eq_self.mpr (List.all_eq_true.mp hall)
    rw [mergeAlgorithm, subsetAlgorithm, hall, hfilter]
    by_cases hnil : d.changes = []
    · rw [if_pos hnil, hnil, mergedAlgorithm_nil]
      exact .refl _
    · rw [if_neg hnil, if_pos rfl, hd]
      exact (mergedAlgorithm_all hb hc).symm

theorem mergeAlgorithm_union (hb : UniqueKeys d.baseline) (hc : UniqueKeys d.candidate)
    {basePins candPins : Option Pins}
    (hd : d.changes = deriveChanges d.baseline d.candidate basePins candPins)
    (hST : ∀ c ∈ d.changes, ¬ (S c = true ∧ T c = true)) :
    SameAlgorithm (mergeAlgorithm { d with baseline := mergeAlgorithm d S } T)
      (mergeAlgorithm d fun c => S c || T c) := by
  by_cases hT : d.changes.filter T = []
  · have hempty : ∀ c ∈ d.changes, T c = false := fun c hc => by
      simpa using List.filter_eq_nil_iff.mp hT c hc
    have hboth : mergeAlgorithm d (fun c => S c || T c) = mergeAlgorithm d S :=
      mergeAlgorithm_congr fun c hc => by rw [hempty c hc, Bool.or_false]
    rw [hboth, mergeAlgorithm, subsetAlgorithm, if_pos hT]
    exact .refl _
  · refine SameAlgorithm.trans ?_ (mergeAlgorithm_same hb hc hd).symm
    obtain ⟨c, hcT⟩ := List.exists_mem_of_ne_nil _ hT
    obtain ⟨hc', hTc⟩ := List.mem_filter.mp hcT
    have hS : d.changes.all S = false :=
      List.all_eq_false.mpr ⟨c, hc', fun hSc => hST c hc' ⟨hSc, hTc⟩⟩
    cases hall : d.changes.all T with
    | false =>
      rw [mergeAlgorithm_of_not_all (d := { d with baseline := mergeAlgorithm d S }) hall,
        mergeAlgorithm_of_not_all hS]
      exact mergedAlgorithm_union hb hc hd hST
    | true =>
      have hboth : (d.changes.filter fun c => S c || T c) = d.changes :=
        List.filter_eq_self.mpr fun c hc => by rw [List.all_eq_true.mp hall c hc, Bool.or_true]
      rw [hboth, mergeAlgorithm, subsetAlgorithm, if_neg hT, if_pos hall, hd]
      exact (mergedAlgorithm_all hb hc).symm

theorem removed_not_after (hd : d.changes = deriveChanges d.baseline d.candidate (some before) (some after))
    (h : r ∈ pinsOf (d.changes.filter S) false k) : r ∉ after k := by
  obtain ⟨c, hc, hp⟩ := mem_pinsOf.mp h
  have hall : r ∈ pinsOf d.changes false k := mem_pinsOf.mpr ⟨c, List.mem_of_mem_filter hc, hp⟩
  rw [hd, mem_pinsOf_derived] at hall
  exact hall.1.2

/-- The pins of a set of changes: what its algorithm names, what it adds, and what stays. -/
theorem mem_mergePins (hd : d.changes = deriveChanges d.baseline d.candidate (some before) (some after))
    (hpins : WellPinned d.baseline d.candidate before after) (hS : d.changes.filter S ≠ []) :
    r ∈ mergePins d before after S k ↔
      r ∈ needed (mergeAlgorithm d S) k ∨ r ∈ pinsOf (d.changes.filter S) true k ∨
        r ∈ before k ∧ r ∈ after k := by
  cases hall : d.changes.all S with
  | false =>
    rw [mergePins, subsetPins, if_neg hS, hall, if_neg Bool.false_ne_true]
    exact mem_mergedPins fun r => removed_not_after hd
  | true =>
    have hfilter : d.changes.filter S = d.changes := List.filter_eq_self.mpr (List.all_eq_true.mp hall)
    rw [mergePins, mergeAlgorithm, subsetPins, subsetAlgorithm, if_neg hS, if_neg hS, if_pos hall,
      if_pos hall, hfilter, hd]
    exact mem_after hpins

theorem pins_of_no_changes (hb : UniqueKeys d.baseline) (hc : UniqueKeys d.candidate)
    (hd : d.changes = deriveChanges d.baseline d.candidate (some before) (some after))
    (hpins : WellPinned d.baseline d.candidate before after) (hnil : d.changes = []) :
    r ∈ before k ↔ r ∈ after k := by
  have hsame : SameAlgorithm d.baseline d.candidate := by
    have := @mergedAlgorithm_all d.baseline d.candidate (some before) (some after) hb hc
    rwa [← hd, hnil, mergedAlgorithm_nil] at this
  have hadded := @mem_pinsOf_derived d.baseline d.candidate before after k r
  rw [← hd, hnil] at hadded
  have hnone : ∀ added, r ∉ pinsOf [] added k := fun added h => by
    obtain ⟨c, hc, -⟩ := mem_pinsOf.mp h
    cases hc
  constructor
  · intro hbefore
    by_contra hafter
    have hnamed : r ∈ namedRefs (nodeChanges d.baseline d.candidate) := by
      by_contra hnot
      exact hnone false ((@hadded false).mpr ⟨⟨hbefore, hafter⟩, hnot⟩)
    rcases needed_of_named hpins (Or.inl hbefore) hnamed with h | h
    · exact hafter (hpins.cand_pinned k r (hsame.needed.mp h))
    · exact hafter (hpins.cand_pinned k r h)
  · intro hafter
    by_contra hbefore
    have hnamed : r ∈ namedRefs (nodeChanges d.baseline d.candidate) := by
      by_contra hnot
      exact hnone true ((@hadded true).mpr ⟨⟨hafter, hbefore⟩, hnot⟩)
    rcases needed_of_named hpins (Or.inr hafter) hnamed with h | h
    · exact hbefore (hpins.base_pinned k r h)
    · exact hbefore (hpins.base_pinned k r (hsame.needed.mpr h))

/-- A set of changes after a disjoint one gives the pins of both. -/
theorem mergePins_union (hb : UniqueKeys d.baseline) (hc : UniqueKeys d.candidate)
    (hd : d.changes = deriveChanges d.baseline d.candidate (some before) (some after))
    (hpins : WellPinned d.baseline d.candidate before after)
    (hST : ∀ c ∈ d.changes, ¬ (S c = true ∧ T c = true)) :
    r ∈ mergePins { d with baseline := mergeAlgorithm d S } (mergePins d before after S) after T k ↔
      r ∈ mergePins d before after (fun c => S c || T c) k := by
  have hempty : ∀ {R : Change → Bool}, d.changes.filter R = [] → ∀ c ∈ d.changes, R c = false :=
    fun hR c hc => by simpa using List.filter_eq_nil_iff.mp hR c hc
  by_cases hT : d.changes.filter T = []
  · have hboth : mergePins d before after (fun c => S c || T c) = mergePins d before after S :=
      mergePins_congr fun c hc => by rw [hempty hT c hc, Bool.or_false]
    rw [hboth, mergePins, subsetPins, if_pos hT]
  by_cases hS : d.changes.filter S = []
  · have hboth : mergePins d before after (fun c => S c || T c) = mergePins d before after T :=
      mergePins_congr fun c hc => by rw [hempty hS c hc, Bool.false_or]
    have hfirst : mergeAlgorithm d S = d.baseline := by
      rw [mergeAlgorithm, subsetAlgorithm, if_pos hS]
    have hfirstPins : mergePins d before after S = before := by
      rw [mergePins, subsetPins, if_pos hS]
    rw [hboth, hfirst, hfirstPins]
  have hU : (d.changes.filter fun c => S c || T c) ≠ [] := by
    obtain ⟨c, hc⟩ := List.exists_mem_of_ne_nil _ hS
    obtain ⟨hc, hSc⟩ := List.mem_filter.mp hc
    exact List.ne_nil_of_mem (List.mem_filter.mpr ⟨hc, by rw [hSc, Bool.true_or]⟩)
  have hnot : ∀ {R R' : Change → Bool}, (∀ c ∈ d.changes, ¬ (R c = true ∧ R' c = true)) →
      d.changes.filter R' ≠ [] → d.changes.all R = false := by
    intro R R' hdis hne
    obtain ⟨c, hc⟩ := List.exists_mem_of_ne_nil _ hne
    obtain ⟨hc, hRc⟩ := List.mem_filter.mp hc
    exact List.all_eq_false.mpr ⟨c, hc, fun h => hdis c hc ⟨h, hRc⟩⟩
  have hallS := hnot hST hT
  have hallT := hnot (fun c hc h => hST c hc h.symm) hS
  have halgorithm := mergeAlgorithm_union hb hc hd hST
  have hpinsU : r ∈ pinsOf (d.changes.filter fun c => S c || T c) true k ↔
      r ∈ pinsOf (d.changes.filter S) true k ∨ r ∈ pinsOf (d.changes.filter T) true k := by
    simp only [mem_pinsOf, List.mem_filter, Bool.or_eq_true, and_or_left, or_and_right, exists_or]
  have hadded : ∀ {R : Change → Bool}, r ∈ pinsOf (d.changes.filter R) true k → r ∈ after k := by
    intro R h
    obtain ⟨c, hc, hp⟩ := mem_pinsOf.mp h
    have hall : r ∈ pinsOf d.changes true k := mem_pinsOf.mpr ⟨c, List.mem_of_mem_filter hc, hp⟩
    rw [hd, mem_pinsOf_derived] at hall
    exact hall.1.1
  have hfirst : r ∈ needed (mergeAlgorithm d S) k → r ∈ before k ∨
      r ∈ needed (mergeAlgorithm d fun c => S c || T c) k := by
    intro h
    rw [mergeAlgorithm_of_not_all hallS] at h
    rcases needed_first hb hc hd h with h | h
    · exact Or.inl (hpins.base_pinned k r h)
    · exact Or.inr ((mergeAlgorithm_same hb hc hd).needed.mpr h)
  rw [mem_mergePins hd hpins hU, hpinsU, ← halgorithm.needed]
  rw [← halgorithm.needed] at hfirst
  rw [mergePins, subsetPins, if_neg hT, hallT, if_neg Bool.false_ne_true,
    mem_mergedPins fun r => removed_not_after hd, mem_mergePins hd hpins hS]
  constructor
  · rintro (h | h | ⟨h | h | h, hafter⟩)
    · exact Or.inl h
    · exact Or.inr (Or.inl (Or.inr h))
    · rcases hfirst h with h | h
      · exact Or.inr (Or.inr ⟨h, hafter⟩)
      · exact Or.inl h
    · exact Or.inr (Or.inl (Or.inl h))
    · exact Or.inr (Or.inr h)
  · rintro (h | (h | h) | h)
    · exact Or.inl h
    · exact Or.inr (Or.inr ⟨Or.inr (Or.inl h), hadded h⟩)
    · exact Or.inr (Or.inl h)
    · exact Or.inr (Or.inr ⟨Or.inr (Or.inr h), h.2⟩)

/-! ## The result -/

theorem derive_ok (h : derive baseline candidate = .ok d) :
    ∃ base cand : RatingAlgorithm, baseline.algorithm = some base ∧ candidate.algorithm = some cand ∧
      d.baseline = base.toRatingAlgorithmDraft ∧ d.candidate = cand.toRatingAlgorithmDraft ∧
      d.changes = deriveChanges d.baseline d.candidate baseline.pins candidate.pins := by
  simp only [derive, Failure.ensure_bind_eq_ok, Failure.require_bind_eq_ok] at h
  obtain ⟨-, base, hbase, cand, hcand, h⟩ := h
  cases h
  refine ⟨base, cand, hbase, hcand, rfl, rfl, ?_⟩
  dsimp only

/-- All the changes give the candidate, none the baseline, and disjoint sets compose, where the
names are unique and, for the pins, the versions are well pinned. -/
theorem changes_compose (h : derive baseline candidate = .ok d) (hb : UniqueNames d.baseline)
    (hc : UniqueNames d.candidate) :
    (SameAlgorithm (mergeAlgorithm d fun _ => true) d.candidate ∧
      SameAlgorithm (mergedAlgorithm d.baseline d.candidate d.changes) d.candidate ∧
      mergeAlgorithm d (fun _ => false) = d.baseline ∧
      ∀ S T : Change → Bool, (∀ c ∈ d.changes, ¬ (S c = true ∧ T c = true)) →
        SameAlgorithm (mergeAlgorithm { d with baseline := mergeAlgorithm d S } T)
          (mergeAlgorithm d fun c => S c || T c)) ∧
    ∀ before after, baseline.pins = some before → candidate.pins = some after →
      WellPinned d.baseline d.candidate before after →
      (∀ k r, r ∈ mergePins d before after (fun _ => true) k ↔ r ∈ after k) ∧
      mergePins d before after (fun _ => false) = before ∧
      ∀ S T : Change → Bool, (∀ c ∈ d.changes, ¬ (S c = true ∧ T c = true)) → ∀ k r,
        r ∈ mergePins { d with baseline := mergeAlgorithm d S } (mergePins d before after S) after T k ↔
          r ∈ mergePins d before after (fun c => S c || T c) k := by
  obtain ⟨base, cand, -, -, hbase, hcand, hd⟩ := derive_ok h
  have hb' : UniqueKeys d.baseline := by
    rw [hbase] at hb ⊢
    exact hb.keys
  have hc' : UniqueKeys d.candidate := by
    rw [hcand] at hc ⊢
    exact hc.keys
  have hmerged : SameAlgorithm (mergedAlgorithm d.baseline d.candidate d.changes) d.candidate := by
    rw [hd]
    exact mergedAlgorithm_all hb' hc'
  have hnone : d.changes.filter (fun _ => false) = [] := List.filter_eq_nil_iff.mpr fun _ _ => by simp
  have hevery : d.changes.filter (fun _ => true) = d.changes :=
    List.filter_eq_self.mpr fun _ _ => rfl
  refine ⟨⟨?_, hmerged, ?_, fun S T => mergeAlgorithm_union hb' hc' hd⟩, ?_⟩
  · refine (mergeAlgorithm_same hb' hc' hd).trans ?_
    rwa [hevery]
  · rw [mergeAlgorithm, subsetAlgorithm, if_pos hnone]
  · intro before after hbefore hafter hpins
    rw [hbefore, hafter] at hd
    refine ⟨fun k r => ?_, ?_, fun S T hST k r => mergePins_union hb' hc' hd hpins hST⟩
    · by_cases hnil : d.changes = []
      · rw [mergePins, subsetPins, hevery, if_pos hnil]
        exact pins_of_no_changes hb' hc' hd hpins hnil
      · rw [mergePins, subsetPins, hevery, if_neg hnil, if_pos (List.all_eq_true.mpr fun _ _ => rfl)]
    · rw [mergePins, subsetPins, if_pos hnone]

end Sets

section Example

def areaTable (version : ℕ) : ArtifactRef := ⟨"rate_table", "area", version⟩

def areaAlgorithm : RatingAlgorithm where
  slug := "motor"
  version := 1
  inputContract := [{ name := "area", type := .string }]
  outputs := [{ name := "payable", type := "money_minor" }]
  steps := [
    { stepId := "in", consumes := [], produces := ["area"], kind := .input "area" .error },
    { stepId := "area_table", consumes := ["area"], produces := ["price"],
      kind := .table (areaTable 1) ["area"] .error .none },
    { stepId := "out", consumes := ["price"], produces := [], kind := .output "payable" ⟨.halfEven, 0⟩ }]
  subGraphs := []
  graph_ok := by decide

/-- The next table, with one input and one output of other types. -/
def repricedAlgorithm : RatingAlgorithm where
  slug := "motor"
  version := 2
  inputContract := [{ name := "area", type := .int }]
  outputs := [{ name := "payable", type := "decimal" }]
  steps := [
    { stepId := "in", consumes := [], produces := ["area"], kind := .input "area" .error },
    { stepId := "area_table", consumes := ["area"], produces := ["price"],
      kind := .table (areaTable 2) ["area"] .error .none },
    { stepId := "out", consumes := ["price"], produces := [], kind := .output "payable" ⟨.halfEven, 0⟩ }]
  subGraphs := []
  graph_ok := by decide

def pinned (rateTables models : List ArtifactRef) : Pins
  | .rateTables => rateTables
  | .models => models
  | _ => []

def areaVersion (pins : Pins) : RatingVersion := ⟨some areaAlgorithm, some pins, .exact⟩

def repricedVersion (pins : Pins) : RatingVersion := ⟨some repricedAlgorithm, some pins, .exact⟩

def areaChanges (before after : Pins) : Derivation :=
  ⟨areaAlgorithm.toRatingAlgorithmDraft, repricedAlgorithm.toRatingAlgorithmDraft,
    deriveChanges areaAlgorithm.toRatingAlgorithmDraft repricedAlgorithm.toRatingAlgorithmDraft
      (some before) (some after)⟩

/-- An area table and its new version, each pinned: the re-pointing and the rest compose. -/
theorem areaChanges_compose :
    (mergeAlgorithm (areaChanges (pinned [areaTable 1] []) (pinned [areaTable 2] []))
      fun _ => false) = areaAlgorithm.toRatingAlgorithmDraft ∧
    ∀ k r, r ∈ mergePins (areaChanges (pinned [areaTable 1] []) (pinned [areaTable 2] []))
      (pinned [areaTable 1] []) (pinned [areaTable 2] []) (fun _ => true) k ↔
        r ∈ pinned [areaTable 2] [] k := by
  have h := @changes_compose (areaVersion (pinned [areaTable 1] []))
    (repricedVersion (pinned [areaTable 2] []))
    (areaChanges (pinned [areaTable 1] []) (pinned [areaTable 2] [])) rfl
    ⟨by decide, by decide⟩ ⟨by decide, by decide⟩
  refine ⟨h.1.2.2.1, (h.2 _ _ rfl rfl ⟨?_, ?_, ?_⟩).1⟩
  · intro k
    cases k <;> decide
  · intro k
    cases k <;> decide
  · intro r k k'
    cases k <;> cases k' <;> simp [pinned]

def repointed (c : Change) : Bool := c.kind = .tableRepointed

/-- The area algorithm with its input, or its output, declared twice. -/
def repeatedInput : RatingAlgorithm where
  toRatingAlgorithmDraft := { areaAlgorithm with
    inputContract := [{ name := "area", type := .string }, { name := "area", type := .enum }] }
  graph_ok := by decide

def repeatedOutput : RatingAlgorithm where
  toRatingAlgorithmDraft := { areaAlgorithm with
    outputs := [{ name := "payable", type := "money_minor" }, { name := "payable", type := "text" }] }
  graph_ok := by decide

/-- The re-pointing and then the other changes give another algorithm than all of them. -/
def Differs (d : Derivation) : Prop :=
  ¬ SameAlgorithm (mergeAlgorithm { d with baseline := mergeAlgorithm d repointed } fun c => !repointed c)
    (mergeAlgorithm d fun c => repointed c || !repointed c)

def PinsDiffer (before after : Pins) : Prop :=
  ∃ k r, ¬ (r ∈ mergePins
      { areaChanges before after with baseline := mergeAlgorithm (areaChanges before after) repointed }
      (mergePins (areaChanges before after) before after repointed) after (fun c => !repointed c) k ↔
    r ∈ mergePins (areaChanges before after) before after (fun c => repointed c || !repointed c) k)

/-- Where the sets do not compose: a baseline that repeats a name, and a version that does not pin
what it names, or pins it under another kind. -/
theorem changes_not_compose :
    (∃ d, derive ⟨some repeatedInput, some (pinned [areaTable 1] []), .exact⟩
        (repricedVersion (pinned [areaTable 2] [])) = .ok d ∧ Differs d) ∧
    (∃ d, derive ⟨some repeatedOutput, some (pinned [areaTable 1] []), .exact⟩
        (repricedVersion (pinned [areaTable 2] [])) = .ok d ∧ Differs d) ∧
    (∀ before after, derive (areaVersion before) (repricedVersion after) =
      .ok (areaChanges before after)) ∧
    PinsDiffer (pinned [] []) (pinned [areaTable 1, areaTable 2] []) ∧
    PinsDiffer (pinned [areaTable 1] []) (pinned [] []) ∧
    PinsDiffer (pinned [areaTable 1] []) (pinned [areaTable 2] [areaTable 1]) := by
  refine ⟨⟨_, rfl, fun h => ?_⟩, ⟨_, rfl, fun h => ?_⟩, fun _ _ => rfl, ?_, ?_, ?_⟩
  · exact absurd h.inputContract.length_eq (by decide)
  · exact absurd h.outputs.length_eq (by decide)
  · exact ⟨.rateTables, areaTable 1, by decide⟩
  · exact ⟨.rateTables, areaTable 2, by decide⟩
  · exact ⟨.models, areaTable 1, by decide⟩

end Example

end GiPricing.Attribution
