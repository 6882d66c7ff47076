import GiPricing.Rating.SubGraph

/-! # Inlining the mounts

Each mount of an algorithm is replaced by the steps of its fragment. A fragment name that
no port maps, and every fragment step id, is moved under the mount point.
-/

namespace GiPricing

/-- Set a key, keeping the place of a key that is there. -/
def Dict.insert {α : Type*} (d : Dict α) (k : String) (v : α) : Dict α :=
  if h : k ∈ d.keys then
    ⟨d.entries.map fun e => (e.1, if e.1 = k then v else e.2), by
      simpa [Function.comp_def] using d.nodup⟩
  else
    ⟨d.entries ++ [(k, v)], by
      rw [List.map_append]
      exact List.nodup_append.mpr ⟨d.nodup, by simp, fun a ha b hb he => by
        obtain rfl : b = k := by simpa using hb
        exact h (he ▸ ha)⟩⟩

theorem Dict.get?_insert {α : Type*} {d : Dict α} {k c : String} {v : α} :
    (d.insert k v).get? c = if c = k then some v else d.get? c := by
  have hmem : ∀ w, (c, w) ∈ (d.insert k v).entries ↔
      (c = k ∧ w = v) ∨ (c ≠ k ∧ (c, w) ∈ d.entries) := by
    intro w
    by_cases hk : k ∈ d.keys
    · simp only [Dict.insert, dif_pos hk, List.mem_map, Prod.mk.injEq, Prod.exists]
      constructor
      · rintro ⟨a, b, hab, rfl, hw⟩
        split_ifs at hw with h
        · exact Or.inl ⟨h, hw.symm⟩
        · exact Or.inr ⟨h, hw ▸ hab⟩
      · rintro (⟨rfl, rfl⟩ | ⟨hne, hab⟩)
        · obtain ⟨⟨a, b⟩, hab, rfl⟩ := List.mem_map.mp hk
          exact ⟨a, b, hab, rfl, if_pos rfl⟩
        · exact ⟨c, w, hab, rfl, if_neg hne⟩
    · simp only [Dict.insert, dif_neg hk, List.mem_append, List.mem_singleton, Prod.mk.injEq]
      constructor
      · rintro (hab | h)
        · exact Or.inr ⟨fun h => hk (h ▸ List.mem_map_of_mem hab), hab⟩
        · exact Or.inl h
      · rintro (h | ⟨-, hab⟩)
        · exact Or.inr h
        · exact Or.inl hab
  split_ifs with h
  · exact (Dict.get?_eq_some _).mpr ((hmem v).mpr (Or.inl ⟨h, rfl⟩))
  · rw [Option.ext_iff]
    intro w
    rw [Dict.get?_eq_some, Dict.get?_eq_some, hmem]
    simp [h]

def Dict.renameKeys {α : Type*} (d : Dict α) (f : String → String) : Dict α :=
  d.entries.foldl (fun acc e => acc.insert (f e.1) e.2) Dict.empty

def Dict.mapValues {α β : Type*} (d : Dict α) (f : α → β) : Dict β :=
  ⟨d.entries.map fun e => (e.1, f e.2), by simpa [Function.comp_def] using d.nodup⟩

/-- The namespace separator of `<mount_point>__<name>`. -/
def separator : String := "__"

def namespaced (point name : String) : String := point ++ separator ++ name

def derived (stepId : String) : List String :=
  stepId :: ["_e", "__violated", "__before", "__min", "__max"].map (stepId ++ ·)

inductive RefusalCode | ratingGraphUnresolvedRef | ratingVersionUnpinned | validationFailed
  deriving DecidableEq, Repr

/-- Why a mount is not inlined, with what the message names. -/
inductive InlineRefusal
  | unmappedPorts (point : String) (ports : List String)
  | undeclaredPorts (point : String) (ports : List String)
  | noOutputMapped (point : String)
  | outputsShareName (point : String)
  | reproducedPorts (point : String) (ports : List String)
  | unpinned (point : String) (ref : ArtifactRef)
  | clash (names : List String)
  | invariants (first : ValidationIssue) (unresolved : Bool)
  deriving DecidableEq, Repr

def InlineRefusal.code : InlineRefusal → RefusalCode
  | unmappedPorts .. | undeclaredPorts .. | noOutputMapped .. => .ratingGraphUnresolvedRef
  | unpinned .. => .ratingVersionUnpinned
  | invariants _ true => .ratingGraphUnresolvedRef
  | _ => .validationFailed

/-- `sorted` of a set: by code points, without repeats. -/
def sortedSet (names : List String) : List String := names.dedup.insertionSort (· ≤ ·)

variable (mount : SubGraphRef) (fragment : SubGraphBody)

def SubGraphRef.portName (name : String) : Option String :=
  (mount.outputs.get? name).or (mount.inputs.get? name)

/-- `_port_mapping`: refuse a map that does not fit the fragment's ports. -/
def portMapping : Except InlineRefusal (String → Option String) :=
  let unmapped := fragment.ports.filter (!mount.inputs.keys.contains ·)
  let undeclared := mount.inputs.keys.filter (!fragment.ports.contains ·) ++
    mount.outputs.keys.filter (!fragment.declared.contains ·)
  if unmapped ≠ [] then .error (.unmappedPorts mount.mountPoint (sortedSet unmapped))
  else if undeclared ≠ [] then .error (.undeclaredPorts mount.mountPoint (sortedSet undeclared))
  else if mount.outputs.entries = [] then .error (.noOutputMapped mount.mountPoint)
  else if ¬ mount.outputs.values.Nodup then .error (.outputsShareName mount.mountPoint)
  else .ok mount.portName

/-- The graph names of a step: what it produces, consumes and feeds to a model. -/
def RatingStep.graphNames (s : RatingStep) : List String :=
  s.produces ++ s.consumes ++ s.featureNames

/-- The names of a fragment: its input ports and the graph names of its steps. -/
def SubGraphBody.names : List String :=
  fragment.ports ++ fragment.steps.flatMap RatingStep.graphNames

/-- The full renaming: ports to parent names, every other name under the mount point. -/
def SubGraphRef.mapping (name : String) : Option String :=
  (mount.portName name).or
    (if name ∈ fragment.names then some (namespaced mount.mountPoint name) else none)

def renameName (mapping : String → Option String) (name : String) : String :=
  (mapping name).getD name

def RatingStep.inlined (point : String) (mapping : String → Option String) (s : RatingStep) :
    RatingStep :=
  { s with
    stepId := namespaced point s.stepId
    consumes := s.consumes.map (renameName mapping)
    produces := s.produces.map (renameName mapping)
    kind := match s.kind with
      | .lookup ref key asAt miss =>
        .lookup ref (key.map (renameTokens · mapping)) (renameTokens asAt mapping) miss
      | .table ref key miss interpolation =>
        .table ref (key.map (renameTokens · mapping)) miss interpolation
      | .expression e type => .expression (renameTokens e mapping) type
      | .constraint c mode bounds reason =>
        .constraint (renameTokens c mapping) mode
          (bounds.map fun b => b.mapValues (renameTokens · mapping)) reason
      | .modelCall target mode features type =>
        .modelCall target mode (features.renameKeys (renameName mapping)) type
      | k => k }

def SubGraphRef.inlinedSteps : List RatingStep :=
  fragment.steps.map (·.inlined mount.mountPoint (mount.mapping fragment))

/-- The names a mount introduces: all but its ports and the parent names of its outputs. -/
def SubGraphRef.newNames : List String :=
  ((fragment.names.filter (!fragment.ports.contains ·)).map
    (renameName (mount.mapping fragment))).filter (!mount.outputs.values.contains ·)

/-- The fragment's steps under the mount, and the new value names they introduce. -/
def inlineOne : Except InlineRefusal (List RatingStep × List String) :=
  match portMapping mount fragment with
  | .error e => .error e
  | .ok _ =>
    let reproduced := fragment.ports.filter fun p =>
      fragment.steps.any fun s => s.produces.contains p
    if reproduced ≠ [] then .error (.reproducedPorts mount.mountPoint (sortedSet reproduced))
    else .ok (mount.inlinedSteps fragment, mount.newNames fragment)

/-! ## The inlined list of steps -/

def producersAt (steps : List RatingStep) (name : String) : List ℕ :=
  (List.range steps.length).filter fun i => steps[i]?.any (·.produces.contains name)

/-- The positions a step depends on: the other producers of what it consumes. -/
def dependenciesAt (steps : List RatingStep) (index : ℕ) : List ℕ :=
  (((steps[index]?.map RatingStep.consumes).getD []).flatMap
    fun name => (producersAt steps name).filter (· ≠ index)).dedup

/-- Kahn's algorithm with the list order as the tie-break; a cycle leaves the list as it is. -/
def stableTopological (steps : List RatingStep) : List RatingStep :=
  let order := Kahn.order (Kahn.heap id) (dependenciesAt steps) (List.range steps.length)
  if order.length = steps.length then order.filterMap (steps[·]?) else steps

def RatingAlgorithmDraft.reserved (draft : RatingAlgorithmDraft) : List String :=
  (draft.steps.flatMap fun s => derived s.stepId ++ s.consumes ++ s.produces) ++
    draft.subGraphs.flatMap fun m => m.inputs.values ++ m.outputs.values

/-- The steps and new names of the mounts one purpose selects. -/
def inlineSelected (fragments : ArtifactRef → Option SubGraph) (purpose : Option MountPurpose) :
    List SubGraphRef → Except InlineRefusal (List RatingStep × List String)
  | [] => .ok ([], [])
  | m :: rest =>
    if m.selects purpose then
      match fragments m.ref with
      | none => .error (.unpinned m.mountPoint m.ref)
      | some f => match inlineOne m f.toSubGraphBody with
        | .error e => .error e
        | .ok (steps, introduced) => (inlineSelected fragments purpose rest).map
            fun (more, names) => (steps ++ more, introduced ++ names)
    else inlineSelected fragments purpose rest

/-- The draft accepted as an algorithm, or its first breach. -/
def RatingAlgorithmDraft.validate (draft : RatingAlgorithmDraft) :
    Except ValidationIssue RatingAlgorithm :=
  match h : draft.graphInvariantIssues with
  | [] => .ok ⟨draft, h⟩
  | first :: _ => .error first

def RatingAlgorithmDraft.withInlined (draft : RatingAlgorithmDraft) (inlined : List RatingStep) :
    RatingAlgorithmDraft :=
  { draft with steps := stableTopological (draft.steps ++ inlined), subGraphs := [] }

def RatingAlgorithmDraft.clashes (draft : RatingAlgorithmDraft) (inlined : List RatingStep)
    (newNames : List String) : List String :=
  (newNames ++ inlined.flatMap fun s => derived s.stepId).filter (draft.reserved.contains ·)

/-- The algorithm with its mounts replaced by their fragments' namespaced steps. -/
def inlineMounts (algorithm : RatingAlgorithm) (fragments : ArtifactRef → Option SubGraph)
    (purpose : Option MountPurpose) : Except InlineRefusal RatingAlgorithm :=
  if algorithm.subGraphs = [] then .ok algorithm
  else match inlineSelected fragments purpose algorithm.subGraphs with
    | .error e => .error e
    | .ok (inlined, newNames) =>
      if algorithm.clashes inlined newNames ≠ [] then
        .error (.clash (sortedSet (algorithm.clashes inlined newNames)))
      else match (algorithm.withInlined inlined).validate with
        | .ok a => .ok a
        | .error first => .error (.invariants first (first.code = .ratingGraphUnresolvedRef))

/-! ## What a successful inlining gives -/

/-- The ports of a mount fit its fragment, which writes to none of its input ports. -/
structure PortsFit (m : SubGraphRef) (f : SubGraphBody) : Prop where
  inputs_mapped : ∀ p ∈ f.ports, p ∈ m.inputs.keys
  inputs_declared : ∀ p ∈ m.inputs.keys, p ∈ f.ports
  outputs_declared : ∀ p ∈ m.outputs.keys, p ∈ f.declared
  outputs_ne : m.outputs.entries ≠ []
  outputs_nodup : m.outputs.values.Nodup
  ports_kept : ∀ p ∈ f.ports, ∀ s ∈ f.steps, p ∉ s.produces

section Spec

variable {m : SubGraphRef} {f : SubGraphBody} {fragments : ArtifactRef → Option SubGraph}
  {purpose : Option MountPurpose}

theorem portMapping_eq_ok {g : String → Option String} :
    portMapping m f = .ok g ↔
      ((∀ p ∈ f.ports, p ∈ m.inputs.keys) ∧ (∀ p ∈ m.inputs.keys, p ∈ f.ports) ∧
        (∀ p ∈ m.outputs.keys, p ∈ f.declared) ∧ m.outputs.entries ≠ [] ∧
        m.outputs.values.Nodup) ∧ g = m.portName := by
  have hunmapped : f.ports.filter (!m.inputs.keys.contains ·) = [] ↔
      ∀ p ∈ f.ports, p ∈ m.inputs.keys := by simp [List.filter_eq_nil_iff]
  have hundeclared : m.inputs.keys.filter (!f.ports.contains ·) ++
        m.outputs.keys.filter (!f.declared.contains ·) = [] ↔
      (∀ p ∈ m.inputs.keys, p ∈ f.ports) ∧ ∀ p ∈ m.outputs.keys, p ∈ f.declared := by
    simp [List.filter_eq_nil_iff]
  simp only [portMapping, ne_eq, hunmapped, hundeclared]
  split_ifs with h₁ h₂ h₃ h₄
  · exact ⟨fun h => (nomatch h), fun h => absurd h₃ h.1.2.2.2.1⟩
  · exact ⟨fun h => ⟨⟨h₁, h₂.1, h₂.2, h₃, h₄⟩, (Except.ok.inj h).symm⟩, fun h => h.2 ▸ rfl⟩
  · exact ⟨fun h => (nomatch h), fun h => absurd h.1.2.2.2.2 h₄⟩
  · exact ⟨fun h => (nomatch h), fun h => absurd ⟨h.1.2.1, h.1.2.2.1⟩ h₂⟩
  · exact ⟨fun h => (nomatch h), fun h => absurd h.1.1 h₁⟩

theorem inlineOne_eq_ok {r : List RatingStep × List String} :
    inlineOne m f = .ok r ↔ PortsFit m f ∧ r = (m.inlinedSteps f, m.newNames f) := by
  have hrep : f.ports.filter (fun p => f.steps.any fun s => s.produces.contains p) = [] ↔
      ∀ p ∈ f.ports, ∀ s ∈ f.steps, p ∉ s.produces := by
    simp [List.filter_eq_nil_iff]
  unfold inlineOne
  split
  · rename_i e he
    refine ⟨fun h => (nomatch h), ?_⟩
    rintro ⟨h, -⟩
    rw [portMapping_eq_ok.mpr ⟨⟨h.1, h.2, h.3, h.4, h.5⟩, rfl⟩] at he
    cases he
  · rename_i g hg
    obtain ⟨⟨h₁, h₂, h₃, h₄, h₅⟩, -⟩ := portMapping_eq_ok.mp hg
    simp only
    split_ifs with h
    · exact ⟨fun hr => (nomatch hr), fun hf => absurd (hrep.mpr hf.1.ports_kept) h⟩
    · rw [ne_eq, not_not, hrep] at h
      simp only [Except.ok.injEq]
      exact ⟨fun hr => ⟨⟨h₁, h₂, h₃, h₄, h₅, h⟩, hr.symm⟩, fun hr => hr.2.symm⟩

def selectedFragments (fragments : ArtifactRef → Option SubGraph) (purpose : Option MountPurpose)
    (mounts : List SubGraphRef) : List (SubGraphRef × SubGraph) :=
  (mounts.filter (·.selects purpose)).filterMap fun m => (fragments m.ref).map (m, ·)

theorem inlineSelected_eq_ok {mounts : List SubGraphRef} {r : List RatingStep × List String} :
    inlineSelected fragments purpose mounts = .ok r ↔
      (∀ m ∈ mounts, m.selects purpose → ∃ g, fragments m.ref = some g ∧ PortsFit m g.toSubGraphBody) ∧
        r = ((selectedFragments fragments purpose mounts).flatMap
              fun e => e.1.inlinedSteps e.2.toSubGraphBody,
            (selectedFragments fragments purpose mounts).flatMap
              fun e => e.1.newNames e.2.toSubGraphBody) := by
  induction mounts generalizing r with
  | nil =>
    rw [inlineSelected, Except.ok.injEq]
    exact ⟨fun h => ⟨by simp, h.symm⟩, fun h => h.2.symm⟩
  | cons m rest ih =>
    unfold inlineSelected
    split_ifs with hs
    · cases hf : fragments m.ref with
      | none =>
        simp only [reduceCtorEq, false_iff]
        rintro ⟨h, -⟩
        obtain ⟨g, hg, -⟩ := h m List.mem_cons_self hs
        rw [hf] at hg; cases hg
      | some g =>
        have hsel : selectedFragments fragments purpose (m :: rest) =
            (m, g) :: selectedFragments fragments purpose rest := by
          simp [selectedFragments, hs, hf]
        rw [hsel]
        simp only
        cases hone : inlineOne m g.toSubGraphBody with
        | error e =>
          simp only [reduceCtorEq, false_iff]
          rintro ⟨h, -⟩
          obtain ⟨g', hg', hfit⟩ := h m List.mem_cons_self hs
          obtain rfl : g = g' := Option.some.inj (hf.symm.trans hg')
          rw [inlineOne_eq_ok.mpr ⟨hfit, rfl⟩] at hone; cases hone
        | ok one =>
          obtain ⟨hfit, rfl⟩ := inlineOne_eq_ok.mp hone
          simp only [List.forall_mem_cons, hs, forall_const, List.flatMap_cons]
          cases hrest : inlineSelected fragments purpose rest with
          | error e =>
            simp only [Except.map, reduceCtorEq, false_iff]
            rintro ⟨⟨-, h⟩, -⟩
            rw [ih.mpr ⟨h, rfl⟩] at hrest; cases hrest
          | ok more =>
            obtain ⟨hr, rfl⟩ := ih.mp hrest
            simp only [Except.map, Except.ok.injEq]
            exact ⟨fun h => ⟨⟨⟨g, hf, hfit⟩, hr⟩, h.symm⟩, fun h => h.2.symm⟩
    · rw [ih]
      have hsel : selectedFragments fragments purpose (m :: rest) =
          selectedFragments fragments purpose rest := by
        simp [selectedFragments, hs]
      simp [hsel, hs]

theorem validate_eq_ok {draft : RatingAlgorithmDraft} {a : RatingAlgorithm} :
    draft.validate = .ok a ↔ a.toRatingAlgorithmDraft = draft := by
  unfold RatingAlgorithmDraft.validate
  split
  · rename_i h
    rw [Except.ok.injEq]
    constructor
    · rintro rfl; rfl
    · rintro rfl; rfl
  · rename_i first rest h
    simp only [reduceCtorEq, false_iff]
    rintro rfl
    rw [a.graph_ok] at h; cases h

/-- The selected mounts fit their fragments, nothing clashes, and the result is accepted. -/
theorem inlineMounts_eq_ok {algorithm out : RatingAlgorithm} (hs : algorithm.subGraphs ≠ []) :
    inlineMounts algorithm fragments purpose = .ok out ↔
      (∀ m ∈ algorithm.subGraphs, m.selects purpose →
        ∃ g, fragments m.ref = some g ∧ PortsFit m g.toSubGraphBody) ∧
      algorithm.clashes
          ((selectedFragments fragments purpose algorithm.subGraphs).flatMap
            fun e => e.1.inlinedSteps e.2.toSubGraphBody)
          ((selectedFragments fragments purpose algorithm.subGraphs).flatMap
            fun e => e.1.newNames e.2.toSubGraphBody) = [] ∧
      out.toRatingAlgorithmDraft = algorithm.withInlined
        ((selectedFragments fragments purpose algorithm.subGraphs).flatMap
          fun e => e.1.inlinedSteps e.2.toSubGraphBody) := by
  unfold inlineMounts
  rw [if_neg hs]
  split
  · rename_i e he
    refine ⟨fun h => (nomatch h), ?_⟩
    rintro ⟨h, -, -⟩
    rw [inlineSelected_eq_ok.mpr ⟨h, rfl⟩] at he; cases he
  · rename_i inlined newNames hok
    obtain ⟨hfit, he⟩ := inlineSelected_eq_ok.mp hok
    obtain ⟨rfl, rfl⟩ := Prod.mk.inj he
    split_ifs with hc
    · exact ⟨fun h => (nomatch h), fun h => absurd h.2.1 hc⟩
    · rw [ne_eq, not_not] at hc
      split
      · rename_i a ha
        rw [Except.ok.injEq, ← validate_eq_ok.mp ha]
        refine ⟨fun h => ⟨hfit, hc, h ▸ rfl⟩, fun h => ?_⟩
        obtain ⟨d, hd⟩ := a
        obtain ⟨d', hd'⟩ := out
        obtain rfl : d' = d := h.2.2
        rfl
      · rename_i first ha
        refine ⟨fun h => (nomatch h), fun h => ?_⟩
        rw [validate_eq_ok.mpr h.2.2] at ha; cases ha

/-! ## The order of the inlined steps -/

variable {steps : List RatingStep} {i j : ℕ}

theorem mem_dependenciesAt :
    j ∈ dependenciesAt steps i ↔ j ≠ i ∧ ∃ s t, steps[i]? = some s ∧ steps[j]? = some t ∧
      ∃ x ∈ s.consumes, x ∈ t.produces := by
  simp only [dependenciesAt, producersAt, List.mem_dedup, List.mem_flatMap, List.mem_filter,
    List.mem_range, decide_eq_true_eq]
  constructor
  · rintro ⟨x, hx, ⟨hj, hp⟩, hne⟩
    cases hs : steps[i]? with
    | none => simp [hs] at hx
    | some s =>
      rw [List.getElem?_eq_getElem hj] at hp
      exact ⟨hne, s, steps[j], rfl, List.getElem?_eq_getElem hj, x, by simpa [hs] using hx,
        by simpa using hp⟩
  · rintro ⟨hne, s, t, hs, ht, x, hx, hy⟩
    obtain ⟨hj, rfl⟩ := List.getElem?_eq_some_iff.mp ht
    exact ⟨x, by simpa [hs] using hx, ⟨hj, by simpa [ht] using hy⟩, hne⟩

theorem wellFormedAt (steps : List RatingStep) :
    Kahn.WellFormed (dependenciesAt steps) (List.range steps.length) where
  nodup := List.nodup_range
  deps_nodup _ := List.nodup_dedup _
  deps_mem i _ j hj := by
    obtain ⟨_, _, _, _, ht, _⟩ := mem_dependenciesAt.mp hj
    exact List.mem_range.mpr (List.getElem?_eq_some_iff.mp ht).1
  irrefl i hi := (mem_dependenciesAt.mp hi).1 rfl

theorem filterMap_range (steps : List RatingStep) :
    (List.range steps.length).filterMap (steps[·]?) = steps := by
  induction steps with
  | nil => rfl
  | cons s l ih =>
    rw [List.length_cons, List.range_succ_eq_map, List.filterMap_cons, List.filterMap_map]
    simpa using ih

theorem stableTopological_perm (steps : List RatingStep) :
    (stableTopological steps).Perm steps := by
  unfold stableTopological
  simp only
  split_ifs with h
  · have w := wellFormedAt steps
    have hlen : (Kahn.order (Kahn.heap id) (dependenciesAt steps)
        (List.range steps.length)).length = (List.range steps.length).length := by
      rw [h, List.length_range]
    have hp := Kahn.order_perm (d := Kahn.heap id) w ((Kahn.length_order_iff w).mp hlen)
    exact (hp.filterMap _).trans (List.Perm.of_eq (filterMap_range steps))
  · rfl

end Spec

section Reordered

variable {algorithm : RatingAlgorithm} {fragments : ArtifactRef → Option SubGraph}
  {purpose : Option MountPurpose} {steps : List RatingStep}

theorem reserved_perm {draft : RatingAlgorithmDraft} (hp : steps.Perm draft.steps) (name : String) :
    name ∈ RatingAlgorithmDraft.reserved { draft with steps := steps } ↔ name ∈ draft.reserved := by
  simp only [RatingAlgorithmDraft.reserved, List.mem_append, List.mem_flatMap, hp.mem_iff]

theorem subGraphs_inlineMounts {out : RatingAlgorithm}
    (h : inlineMounts algorithm fragments purpose = .ok out) : out.subGraphs = [] := by
  by_cases hs : algorithm.subGraphs = []
  · rw [inlineMounts, if_pos hs] at h
    rwa [← Except.ok.inj h]
  · rw [((inlineMounts_eq_ok hs).mp h).2.2]; rfl

theorem inlineMounts_reordered {out : RatingAlgorithm} (hp : steps.Perm algorithm.steps)
    (h : inlineMounts algorithm fragments purpose = .ok out) :
    ∃ (steps' : List RatingStep) (hp' : steps'.Perm out.steps),
      inlineMounts (algorithm.reordered steps hp) fragments purpose =
        .ok (out.reordered steps' hp') := by
  by_cases hs : algorithm.subGraphs = []
  · obtain rfl : algorithm = out := by rw [inlineMounts, if_pos hs] at h; exact Except.ok.inj h
    exact ⟨steps, hp, if_pos hs⟩
  · obtain ⟨hfit, hclash, hout⟩ := (inlineMounts_eq_ok hs).mp h
    have hperm : ∀ inlined, (stableTopological (steps ++ inlined)).Perm
        (stableTopological (algorithm.steps ++ inlined)) := fun inlined =>
      (stableTopological_perm _).trans
        ((hp.append_right _).trans (stableTopological_perm _).symm)
    have hs' : (algorithm.reordered steps hp).subGraphs ≠ [] := hs
    have hsteps := congrArg RatingAlgorithmDraft.steps hout
    refine ⟨_, (hperm _).trans (List.Perm.of_eq hsteps.symm), (inlineMounts_eq_ok hs').mpr ⟨hfit, ?_, ?_⟩⟩
    · rw [← hclash]
      refine List.filter_congr fun name _ => ?_
      rw [Bool.eq_iff_iff, List.contains_iff_mem, List.contains_iff_mem]
      exact reserved_perm hp name
    · simp only [RatingAlgorithm.reordered, hout]; rfl

end Reordered

end GiPricing
