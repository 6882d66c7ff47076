import GiPricing.Runtime.Wire

/-! # The order of the steps

The chain of an accepted algorithm is a topological arrangement of its interior steps. When
the generated names are apart from the declared ones and every step reads only what it
declares, any two arrangements evaluate alike.
-/

namespace GiPricing

open Dataflow

variable {engine : Engine} {models : Models} {payloads : Payloads}

/-! ## The arrangement -/

section Arrangement

variable {interior order : List RatingStep} {s t : RatingStep}

def producersOf (interior : List RatingStep) (s : RatingStep) : List RatingStep :=
  interior.filter fun t => t ≠ s ∧ ∃ x ∈ s.consumes, x ∈ t.produces

theorem mem_producersOf :
    t ∈ producersOf interior s ↔ t ∈ interior ∧ t ≠ s ∧ ∃ x ∈ s.consumes, x ∈ t.produces := by
  simp [producersOf]

theorem dependencyOrder_eq_ok :
    dependencyOrder interior = .ok order ↔
      Kahn.Acyclic (dependenciesAt interior) (List.range interior.length) ∧
        order = (Kahn.order (Kahn.heap id) (dependenciesAt interior)
          (List.range interior.length)).filterMap (interior[·]?) := by
  have hl := Kahn.length_order_iff (d := Kahn.heap id) (wellFormedAt interior)
  rw [List.length_range] at hl
  unfold dependencyOrder
  simp only [← hl]
  split_ifs with h
  · rw [Except.ok.injEq]
    exact ⟨fun he => ⟨h, he.symm⟩, fun he => he.2.symm⟩
  · exact ⟨fun he => (nomatch he), fun he => absurd he.1 h⟩

theorem dependencyOrder_perm (h : dependencyOrder interior = .ok order) : order.Perm interior := by
  obtain ⟨ha, rfl⟩ := dependencyOrder_eq_ok.mp h
  exact ((Kahn.order_perm (wellFormedAt interior) ha).filterMap _).trans
    (List.Perm.of_eq (filterMap_range interior))

theorem dependencyOrder_respects (h : dependencyOrder interior = .ok order) :
    Kahn.Respects (producersOf interior) order := by
  obtain ⟨-, rfl⟩ := dependencyOrder_eq_ok.mp h
  have w := wellFormedAt interior
  have hr := (Kahn.order_topological (d := Kahn.heap id) w).respects (Kahn.order_nodup w)
  refine List.Pairwise.filterMap _ ?_ hr
  intro i j hij s hs t ht hmem
  obtain ⟨-, hne, hx⟩ := mem_producersOf.mp hmem
  refine hij (mem_dependenciesAt.mpr ⟨?_, s, t, hs, ht, hx⟩)
  rintro rfl
  exact hne (Option.some.inj (ht.symm.trans hs))

variable {steps : List RatingStep}

theorem acyclic_interior (h : Graph.Sound (steps.map RatingStep.node)) :
    Kahn.Acyclic (dependenciesAt (steps.filter RatingStep.isInterior))
      (List.range (steps.filter RatingStep.isInterior).length) := by
  obtain ⟨rank, hr⟩ := h.acyclic
  have hmem : ∀ {i : ℕ} {s : RatingStep}, (steps.filter RatingStep.isInterior)[i]? = some s →
      s ∈ steps := fun hi => (List.mem_filter.mp (List.mem_of_getElem? hi)).1
  have hid : ∀ {s : RatingStep}, s ∈ steps → s.stepId ∈ Graph.ids (steps.map RatingStep.node) :=
    fun hs => List.mem_map.mpr ⟨_, List.mem_map_of_mem hs, rfl⟩
  have hnd : ((steps.filter RatingStep.isInterior).map RatingStep.stepId).Nodup := by
    have hn := h.ids_nodup
    rw [Graph.ids, List.map_map] at hn
    exact hn.sublist (List.filter_sublist.map _)
  refine ⟨fun i => ((steps.filter RatingStep.isInterior)[i]?.map fun s => rank s.stepId).getD 0,
    fun i _ j hj => ?_⟩
  obtain ⟨hne, s, t, hs, ht, x, hx, hy⟩ := mem_dependenciesAt.mp hj
  simp only [hs, ht, Option.map_some, Option.getD_some]
  have hids : t.stepId ≠ s.stepId := by
    intro he
    have hi : ((steps.filter RatingStep.isInterior).map RatingStep.stepId)[i]? = some s.stepId := by
      simp [hs]
    have hj : ((steps.filter RatingStep.isInterior).map RatingStep.stepId)[j]? = some s.stepId := by
      simp [ht, he]
    obtain ⟨hlt, -⟩ := List.getElem?_eq_some_iff.mp hj
    exact hne ((List.getElem?_inj hlt hnd).mp (hj.trans hi.symm))
  exact hr _ (hid (hmem hs)) _ ((Graph.mem_dependencies h.ids_nodup
    (List.mem_map_of_mem (hmem hs)) (List.mem_map_of_mem (hmem ht))).mpr ⟨hids, x, hx, hy⟩)

theorem related_interior (h : Graph.Sound (steps.map RatingStep.node)) (hs : s ∈ steps)
    (ht : t ∈ steps) (hsi : s.isInterior) (hti : t.isInterior) (hne : s ≠ t) {x : String}
    (hx : x ∈ s.produces) (hy : x ∈ t.produces) :
    t ∈ producersOf (steps.filter RatingStep.isInterior) s ∨
      s ∈ producersOf (steps.filter RatingStep.isInterior) t := by
  have hn : ∀ {u v : RatingStep}, u ∈ steps → v ∈ steps → v.isInterior → v ≠ u →
      v.node.stepId ∈ Graph.dependencies (steps.map RatingStep.node) u.node.stepId →
      v ∈ producersOf (steps.filter RatingStep.isInterior) u := by
    intro u v hu hv hvi hvu hd
    have hd := (Graph.mem_dependencies h.ids_nodup (List.mem_map_of_mem hu)
      (List.mem_map_of_mem hv)).mp hd
    exact mem_producersOf.mpr ⟨List.mem_filter.mpr ⟨hv, hvi⟩, hvu, hd.2⟩
  have hids : s.node.stepId ≠ t.node.stepId := by
    intro he
    have hnd := h.ids_nodup
    rw [Graph.ids, List.map_map] at hnd
    exact hne (List.inj_on_of_nodup_map hnd hs ht he)
  rcases h.related (List.mem_map_of_mem hs) (List.mem_map_of_mem ht) hids hx hy with hd | hd
  · exact Or.inl (hn hs ht hti hne.symm hd)
  · exact Or.inr (hn ht hs hsi hne hd)

end Arrangement

/-! ## The nodes -/

def RatingStep.generated (s : RatingStep) : List String := match s.kind with
  | .constraint .. => [violatedKey s.stepId, beforeKey s.stepId, minKey s.stepId, maxKey s.stepId]
  | _ => []

section Generated

variable {s t : RatingStep} {k : String}

theorem generated_cases (h : k ∈ s.generated) :
    k = violatedKey s.stepId ∨ k = beforeKey s.stepId ∨ k = minKey s.stepId ∨
      k = maxKey s.stepId := by
  unfold RatingStep.generated at h
  split at h
  · simpa using h
  · cases h

theorem generated_ne_stamped (h : k ∈ s.generated) : k ≠ stampedDate := by
  rintro rfl
  rcases generated_cases h with h | h | h | h <;>
    simpa [stampedDate, violatedKey, beforeKey, minKey, maxKey] using
      congrArg (fun s => s.toList.reverse) h

theorem generated_injective (h : k ∈ s.generated) (h' : k ∈ t.generated) :
    s.stepId = t.stepId := by
  apply String.toList_inj.mp
  rcases generated_cases h with rfl | rfl | rfl | rfl <;>
    rcases generated_cases h' with h | h | h | h <;>
    simpa [violatedKey, beforeKey, minKey, maxKey] using
      congrArg (fun s => s.toList.reverse) h

end Generated

section Translation

variable {guards : RatingStep → Option (List String × Bool)} {steps order : List RatingStep}
  {wire : List WireNode} {s t : RatingStep}

def RatingStep.translated (engine : Engine) (payloads : Payloads) (s : RatingStep) : WireContent :=
  (s.content engine payloads).toOption.getD (.expressions [])

def RatingStep.wireNodes (engine : Engine) (payloads : Payloads)
    (guards : RatingStep → Option (List String × Bool)) (s : RatingStep) : List WireNode :=
  ⟨s.stepId, s.translated engine payloads⟩ :: s.guardNodes (guards s)

theorem wireNodes_plain : s.wireNodes engine payloads (fun _ => none) =
    [⟨s.stepId, s.translated engine payloads⟩] := by
  simp [RatingStep.wireNodes, RatingStep.guardNodes]

def reportNodes (steps : List RatingStep) : List WireNode :=
  if exactReadNames steps = [] then [] else [exactReadNode (exactReadNames steps)]

theorem mapM_content_eq_ok {nodes : List (List WireNode)} :
    (order.mapM fun s => (s.content engine payloads).map fun content =>
        (⟨s.stepId, content⟩ : WireNode) :: s.guardNodes (guards s)) = .ok nodes ↔
      (∀ s ∈ order, ∃ content, s.content engine payloads = .ok content) ∧
        nodes = order.map (·.wireNodes engine payloads guards) := by
  rw [Failure.mapM_eq_ok]
  induction order generalizing nodes with
  | nil => simp [List.forall₂_nil_left_iff]
  | cons s order ih =>
    rw [List.forall₂_cons_left_iff]
    constructor
    · rintro ⟨b, l, hb, hl, rfl⟩
      obtain ⟨content, hc, rfl⟩ := Failure.map_eq_ok.mp hb
      obtain ⟨hall, rfl⟩ := ih.mp hl
      refine ⟨List.forall_mem_cons.mpr ⟨⟨content, hc⟩, hall⟩, ?_⟩
      simp [RatingStep.wireNodes, RatingStep.translated, hc, Except.toOption]
    · rintro ⟨hall, rfl⟩
      obtain ⟨⟨content, hc⟩, hall⟩ := List.forall_mem_cons.mp hall
      refine ⟨_, _, Failure.map_eq_ok.mpr ⟨content, hc, rfl⟩, ih.mpr ⟨hall, rfl⟩, ?_⟩
      simp [RatingStep.wireNodes, RatingStep.translated, hc, Except.toOption]

theorem toWire_eq_ok :
    toWire engine payloads guards steps = .ok wire ↔
      ∃ order, dependencyOrder (steps.filter RatingStep.isInterior) = .ok order ∧
        (∀ s ∈ order, ∃ content, s.content engine payloads = .ok content) ∧
        wire = order.flatMap (·.wireNodes engine payloads guards) ++ reportNodes steps := by
  simp only [toWire, Failure.bind_eq_ok, mapM_content_eq_ok, Failure.pure_eq_ok]
  constructor
  · rintro ⟨order, ho, _, ⟨hall, rfl⟩, rfl⟩
    exact ⟨order, ho, hall, rfl⟩
  · rintro ⟨order, ho, hall, rfl⟩
    exact ⟨order, ho, _, ⟨hall, rfl⟩, rfl⟩

theorem find?_stepId (hn : (steps.map RatingStep.stepId).Nodup) (hs : s ∈ steps)
    (p : RatingStep → Bool) (hp : p s) :
    steps.find? (fun t => p t && t.stepId = s.stepId) = some s := by
  obtain ⟨t, ht⟩ := Option.isSome_iff_exists.mp (List.find?_isSome.mpr ⟨s, hs, by simp [hp]⟩ :
    (steps.find? fun t => p t && t.stepId = s.stepId).isSome)
  have hid : t.stepId = s.stepId := by
    have := List.find?_some ht
    simp only [Bool.and_eq_true, decide_eq_true_eq] at this
    exact this.2
  rw [ht, List.inj_on_of_nodup_map hn (List.mem_of_find?_eq_some ht) hs hid]

theorem routed_eq_some (hn : (steps.map RatingStep.stepId).Nodup) {id : String} :
    routed steps id = some s ↔ s ∈ steps ∧ s.isModelCall ∧ s.stepId = id := by
  constructor
  · intro h
    have hp := List.find?_some h
    exact ⟨List.mem_of_find?_eq_some h, by simpa using hp⟩
  · rintro ⟨hs, hm, rfl⟩
    exact find?_stepId hn hs RatingStep.isModelCall hm

theorem routed_perm {steps' : List RatingStep} (hn : (steps.map RatingStep.stepId).Nodup)
    (hp : steps'.Perm steps) : routed steps' = routed steps := by
  ext id s
  rw [routed_eq_some hn, routed_eq_some ((hp.map _).nodup_iff.mpr hn), hp.mem_iff]

theorem writes_constraint {condition : String} {onViolation : OnViolation}
    {bounds : Option (Dict String)} {content : WireContent} {route : String → Option RatingStep}
    (h : s.constraintContent condition onViolation bounds = .ok content) {k id : String}
    (hk : k ∈ content.writes route id) :
    k ∈ s.produces ∨ k ∈ [violatedKey s.stepId, beforeKey s.stepId, minKey s.stepId,
      maxKey s.stepId] := by
  unfold RatingStep.constraintContent at h
  simp only at h
  split at h
  · rename_i produced rest hp
    split at h
    · split at h
      · cases h
      · obtain rfl := Except.ok.inj h
        obtain ⟨e, he, rfl⟩ := hk
        simp only [RatingStep.clampExpressions, List.mem_cons, List.mem_append,
          Option.mem_toList, Option.map_eq_some_iff, List.not_mem_nil, or_false] at he
        rcases he with rfl | ((rfl | ⟨m, -, rfl⟩) | ⟨m, -, rfl⟩) | rfl <;> simp [hp]
    · cases h
  · obtain rfl := Except.ok.inj h
    simp only [WireContent.writes, List.mem_singleton, exists_eq_left, Set.mem_ofPred_eq] at hk
    simp [← hk]

/-- A node writes what its step produces and what is generated for it. -/
theorem writes_translated (hn : (steps.map RatingStep.stepId).Nodup) (hs : s ∈ steps)
    (ht : s.guard?.isSome → s.produces ≠ []) {k : String}
    (hk : k ∈ (s.translated engine payloads).writes (routed steps) s.stepId) :
    k ∈ s.produces ∨ k ∈ s.generated ∨ (s.isModelCall = true ∧ k = modelCallErrorKey) := by
  have hfield : s.guard?.isSome → s.outputField ∈ s.produces := by
    intro hg
    obtain ⟨a, l, hl⟩ := List.exists_cons_of_ne_nil (ht hg)
    simp [RatingStep.outputField, hl]
  cases hc : s.content engine payloads with
  | error e => simp [RatingStep.translated, hc, Except.toOption, WireContent.writes] at hk
  | ok content =>
    simp only [RatingStep.translated, hc, Except.toOption, Option.getD_some] at hk
    cases hkind : s.kind with
    | expression text type =>
      simp only [RatingStep.content, hkind] at hc
      split at hc
      · rename_i name hp
        obtain rfl := Except.ok.inj hc
        simp only [WireContent.writes, List.mem_singleton, exists_eq_left, Set.mem_ofPred_eq] at hk
        exact Or.inl (by simp [hp, hk])
      · cases hc
    | table ref keyExpr onMiss interpolation =>
      refine Or.inl ?_
      have hg := hfield (by simp [RatingStep.guard?, hkind])
      cases interpolation with
      | linear => simp [RatingStep.content, hkind] at hc
      | none =>
        simp only [RatingStep.content, hkind, RatingStep.tableContent] at hc
        split at hc
        · obtain rfl := Except.ok.inj hc
          exact (Set.mem_singleton_iff.mp hk) ▸ hg
        · obtain ⟨rules, -, rfl⟩ := Failure.map_eq_ok.mp hc
          exact (Set.mem_singleton_iff.mp hk) ▸ hg
    | lookup ref keyExpr asAt onMiss =>
      refine Or.inl ?_
      have hg := hfield (by simp [RatingStep.guard?, hkind])
      simp only [RatingStep.content, hkind, Except.ok.injEq] at hc
      obtain rfl := hc
      exact (Set.mem_singleton_iff.mp hk) ▸ hg
    | constraint condition onViolation bounds reason =>
      rw [RatingStep.content, hkind] at hc
      have hgen : s.generated = [violatedKey s.stepId, beforeKey s.stepId, minKey s.stepId,
          maxKey s.stepId] := by simp [RatingStep.generated, hkind]
      rw [hgen]
      exact (writes_constraint hc hk).imp_right Or.inl
    | modelCall target mode features type =>
      simp only [RatingStep.content, hkind, Except.ok.injEq] at hc
      obtain rfl := hc
      obtain ⟨s', hr, hk⟩ := hk
      have hm : s.isModelCall := by simp [RatingStep.isModelCall, hkind]
      obtain rfl : s = s' := Option.some.inj
        (((routed_eq_some hn).mpr ⟨hs, hm, rfl⟩).symm.trans hr)
      rcases hk with hk | hk
      · exact Or.inl hk
      · exact Or.inr (Or.inr ⟨hm, hk⟩)
    | input name onMissing =>
      simp only [RatingStep.content, hkind, Except.ok.injEq] at hc
      obtain rfl := hc
      simp [WireContent.writes] at hk
    | output name rounding =>
      simp only [RatingStep.content, hkind, Except.ok.injEq] at hc
      obtain rfl := hc
      simp [WireContent.writes] at hk

end Translation

/-! ## Commuting nodes -/

/-- A step's node reads only what the step consumes and the stamped date, which no step writes;
the generated names are apart from the declared ones. -/
structure Disciplined (engine : Engine) (models : Models) (payloads : Payloads)
    (steps : List RatingStep) : Prop where
  reads : ∀ s ∈ steps, s.isInterior →
    ∀ k ∈ (s.translated engine payloads).reads engine models (routed steps) s.stepId,
      k ∈ s.consumes ∨ k = stampedDate
  generated : ∀ s ∈ steps, ∀ k ∈ s.generated, ∀ t ∈ steps, t.isInterior →
    k ∉ t.produces ∧ k ∉ t.consumes
  stamped : ∀ t ∈ steps, t.isInterior → stampedDate ∉ t.produces
  answered : ∀ t ∈ steps, t.guard?.isSome → t.produces ≠ []

section Commute

variable {steps steps' order order' : List RatingStep} {s t : RatingStep} {c : Context}

/-- The node of a step, which fails where a model call is refused. -/
def stepNode (engine : Engine) (models : Models) (payloads : Payloads)
    (route : String → Option RatingStep) (s : RatingStep) : Node String Value :=
  (WireNode.toNode engine models route ⟨s.stepId, s.translated engine payloads⟩).strict
    modelCallErrorKey

theorem nodup_stepIds (h : Graph.Sound (steps.map RatingStep.node)) :
    (steps.map RatingStep.stepId).Nodup := by
  have hn := h.ids_nodup
  rwa [Graph.ids, List.map_map] at hn

theorem writes_stepNode (hn : (steps.map RatingStep.stepId).Nodup)
    (d : Disciplined engine models payloads steps) (hs : s ∈ steps) {k : String}
    (hk : k ∈ (stepNode engine models payloads (routed steps) s).writes) :
    k ∈ s.produces ∨ k ∈ s.generated := by
  obtain ⟨hk, hne⟩ := hk
  rcases writes_translated hn hs (d.answered s hs) hk with h | h | h
  · exact Or.inl h
  · exact Or.inr h
  · exact absurd h.2 hne

theorem disjoint_writes_reads (hn : (steps.map RatingStep.stepId).Nodup)
    (d : Disciplined engine models payloads steps) (hs : s ∈ steps) (ht : t ∈ steps)
    (hsi : s.isInterior) (hti : t.isInterior) (hne : s ≠ t)
    (hd : s ∉ producersOf (steps.filter RatingStep.isInterior) t) :
    Disjoint (stepNode engine models payloads (routed steps) s).writes
      (stepNode engine models payloads (routed steps) t).reads := by
  rw [Set.disjoint_left]
  intro k hw hr
  rcases writes_stepNode hn d hs hw with hp | hg <;> rcases d.reads t ht hti k hr with hc | rfl
  · exact hd (mem_producersOf.mpr ⟨List.mem_filter.mpr ⟨hs, hsi⟩, hne, k, hc, hp⟩)
  · exact d.stamped s hs hsi hp
  · exact (d.generated s hs k hg t ht hti).2 hc
  · exact generated_ne_stamped hg rfl

theorem apart_stepNode (h : Graph.Sound (steps.map RatingStep.node))
    (d : Disciplined engine models payloads steps) (hs : s ∈ steps) (ht : t ∈ steps)
    (hsi : s.isInterior) (hti : t.isInterior) (hne : s ≠ t)
    (hst : t ∉ producersOf (steps.filter RatingStep.isInterior) s)
    (hts : s ∉ producersOf (steps.filter RatingStep.isInterior) t) :
    (stepNode engine models payloads (routed steps) s).Apart
      (stepNode engine models payloads (routed steps) t) := by
  have hn := nodup_stepIds h
  refine ⟨disjoint_writes_reads hn d hs ht hsi hti hne hts,
    disjoint_writes_reads hn d ht hs hti hsi hne.symm hst, ?_⟩
  rw [Set.disjoint_left]
  intro k hw hw'
  rcases writes_stepNode hn d hs hw with hp | hg <;> rcases writes_stepNode hn d ht hw' with hp' | hg'
  · rcases related_interior h hs ht hsi hti hne hp hp' with hr | hr
    · exact hst hr
    · exact hts hr
  · exact (d.generated t ht k hg' s hs hsi).1 hp
  · exact (d.generated s hs k hg t ht hti).1 hp'
  · exact hne (List.inj_on_of_nodup_map hn hs ht (generated_injective hg hg'))

/-- The interior steps run alike in every order that respects their dependencies. -/
theorem run_stepNodes (h : Graph.Sound (steps.map RatingStep.node))
    (d : Disciplined engine models payloads steps) (hp : steps'.Perm steps)
    (ho : dependencyOrder (steps.filter RatingStep.isInterior) = .ok order)
    (ho' : dependencyOrder (steps'.filter RatingStep.isInterior) = .ok order') (c : Context) :
    Node.run (order.map (stepNode engine models payloads (routed steps))) c =
      Node.run (order'.map (stepNode engine models payloads (routed steps))) c := by
  have hperm := dependencyOrder_perm ho
  have hperm' := dependencyOrder_perm ho'
  have hmem : ∀ s ∈ order, s ∈ steps ∧ s.isInterior := fun s hs =>
    List.mem_filter.mp (hperm.mem_iff.mp hs)
  have hdeps : ∀ s, producersOf (steps'.filter RatingStep.isInterior) s ⊆
      producersOf (steps.filter RatingStep.isInterior) s ∧
      producersOf (steps.filter RatingStep.isInterior) s ⊆
      producersOf (steps'.filter RatingStep.isInterior) s := by
    intro s
    constructor <;> intro t ht <;> rw [mem_producersOf] at ht ⊢
    · exact ⟨(hp.filter _).mem_iff.mp ht.1, ht.2⟩
    · exact ⟨(hp.filter _).mem_iff.mpr ht.1, ht.2⟩
  refine run_perm (hperm.trans ((hp.filter _).symm.trans hperm'.symm)) ?_
    (dependencyOrder_respects ho) ?_ ?_ c
  · exact hperm.nodup_iff.mpr ((nodup_stepIds h).of_map.filter _)
  · exact (dependencyOrder_respects ho').imp fun hn hmem => hn ((hdeps _).2 hmem)
  · intro s hs t ht hne
    obtain ⟨hs, hsi⟩ := hmem s hs
    obtain ⟨ht, hti⟩ := hmem t ht
    by_cases hst : t ∈ producersOf (steps.filter RatingStep.isInterior) s
    · exact Or.inl hst
    by_cases hts : s ∈ producersOf (steps.filter RatingStep.isInterior) t
    · exact Or.inr (Or.inl hts)
    · exact Or.inr (Or.inr (apart_stepNode h d hs ht hsi hti hne hst hts))

end Commute

end GiPricing
