import GiPricing.Runtime.Compiled
import GiPricing.Score.Quote

/-! # What a refused quote names

A failed step shows in one of three ways: a model call leaves its message in the result, a table or
a lookup leaves a mark or a gap in it, and a node that fails ends the evaluation, so that the same
steps are evaluated once more with guards between them.
-/

namespace GiPricing

open Dataflow

variable {engine : Engine} {models : Models} {payloads : Payloads}

/-! ## The node that fails -/

section Failing

variable {route : String → Option RatingStep} {n : WireNode} {l : List WireNode} {c d : Context}

@[simp] theorem failingNode_nil : failingNode engine models route [] c = none := rfl

theorem failingNode_of_step_none (h : (n.toNode engine models route).step c = none) :
    failingNode engine models route (n :: l) c = some n.id := by
  simp [failingNode, Node.stuckAt, h]

theorem failingNode_of_step (h : (n.toNode engine models route).step c = some d) :
    failingNode engine models route (n :: l) c = failingNode engine models route l d := by
  simp [failingNode, Node.stuckAt, h, Option.bind_map]

end Failing

/-! ## Guards -/

def isGuardKey (k : String) : Bool :=
  (afterPrefix cellGuardPrefix k).isSome || (afterPrefix missGuardPrefix k).isSome

def outsideGuards : Set String := {k | isGuardKey k = false}

theorem afterPrefix_append (start t : String) : afterPrefix start (start ++ t) = some t := by
  have hpre : start.toList.isPrefixOf (start ++ t).toList = true := by
    rw [String.toList_append, List.isPrefixOf_iff_prefix]
    exact List.prefix_append _ _
  rw [afterPrefix, if_pos hpre, String.toList_append, ← String.length_toList, List.drop_left,
    String.ofList_toList]

theorem afterPrefix_cell_miss (t : String) :
    afterPrefix cellGuardPrefix (missGuardPrefix ++ t) = none := by
  have hpre : cellGuardPrefix.toList.isPrefixOf (missGuardPrefix ++ t).toList = false := by
    rw [String.toList_append]
    rfl
  rw [afterPrefix, hpre]
  rfl

/-- A gap that the step left in the context, where the step makes it an error. -/
def RatingStep.unmatched (result : Context) (s : RatingStep) : Option Refusal :=
  if s.produces.any fun name => result.read name = .null then match s.kind with
    | .table _ _ .error _ => some (.tableMiss s.stepId)
    | .lookup _ _ _ .error => some (.lookupMiss s.stepId)
    | _ => none
  else none

/-- What the step left in the context refuses the quote: a cell that cannot be read, or else a
gap. -/
def RatingStep.refusedAt (result : Context) (s : RatingStep) : Option Refusal :=
  (s.unparseable result).or (s.unmatched result)

/-- The guard that reports a refusal. -/
def guardId : Refusal → Option String
  | .cellUnparseable sid => some (cellGuardPrefix ++ sid)
  | .tableMiss sid | .lookupMiss sid => some (missGuardPrefix ++ sid)
  | _ => none

/-- The first refusal along a chain of steps that are evaluated in order. -/
def firstRefused (node : RatingStep → Node String Value) : List RatingStep → Context →
    Option Refusal
  | [], _ => none
  | s :: l, c => ((node s).step c).bind fun d => (s.refusedAt d).or (firstRefused node l d)

/-- The engine answers the tests of the guards as it documents them, and nothing else of the wire
names what the guards name. -/
structure GuardsApart (engine : Engine) (models : Models) (payloads : Payloads)
    (steps : List RatingStep) : Prop where
  cell : ∀ s ∈ steps, s.isTable → ∀ name ∈ s.produces, ∀ c,
    engine.evaluate (name ++ (" == " ++ sentinelLiteral) ++ " ? 1 * null : true") c =
      if c name = some (.text unparseableCell) then none else some (.bool true)
  miss : ∀ s ∈ steps, s.guard?.isSome → ∀ name ∈ s.produces, ∀ c,
    engine.evaluate (name ++ " == null" ++ " ? 1 * null : true") c =
      if c.read name = .null then none else some (.bool true)
  unread : ∀ s ∈ steps, s.isInterior →
    (s.translated engine payloads).reads engine models (routed steps) s.stepId ⊆ outsideGuards
  reported : ∀ n ∈ reportNodes steps,
    n.content.reads engine models (routed steps) n.id ⊆ outsideGuards
  produced : ∀ s ∈ steps, ∀ name ∈ s.produces, name ∈ outsideGuards
  ids : ∀ s ∈ steps, s.stepId ∈ outsideGuards

section Guards

variable {steps : List RatingStep} {route : String → Option RatingStep} {c d d' : Context}

theorem entries_eq_none {id : String} {es : List WireExpression} :
    (WireContent.expressions es).entries engine models route id c = none ↔
      ∃ e ∈ es, engine.evaluate e.value c = none := by
  rw [WireContent.entries]
  induction es with
  | nil => simp
  | cons e es ih =>
    simp only [List.mapM_cons, List.exists_mem_cons_iff, Option.bind_eq_bind]
    cases he : engine.evaluate e.value c with
    | none => simp
    | some v =>
      rw [Option.map_some, Option.bind_some]
      cases hes : es.mapM fun e => (engine.evaluate e.value c).map (e.key, ·) with
      | none => simpa [hes] using ih
      | some vs => simpa [hes] using ih

/-- A guard fails where one of its names is bad, and else leaves every other key as it is. -/
theorem guardNode_spec (models : Models) (route : String → Option RatingStep) (sid : String)
    {start test : String} {names : List String} (bad : String → Bool)
    (hstart : start = cellGuardPrefix ∨ start = missGuardPrefix)
    (htest : ∀ name ∈ names, engine.evaluate (name ++ test ++ " ? 1 * null : true") c =
      if bad name then none else some (.bool true)) :
    (names.any bad = true → ∀ rest, failingNode engine models route
      (guardNode sid start names test :: rest) c = some (start ++ sid)) ∧
    (names.any bad = false → ∃ d, Set.EqOn c d outsideGuards ∧ ∀ rest,
      failingNode engine models route (guardNode sid start names test :: rest) c =
        failingNode engine models route rest d) := by
  have hnone : ((guardNode sid start names test).toNode engine models route).step c = none ↔
      names.any bad = true := by
    rw [Node.step, Option.map_eq_none_iff, WireNode.toNode, Option.map_eq_none_iff, guardNode,
      entries_eq_none, List.any_eq_true]
    constructor
    · rintro ⟨e, he, hfails⟩
      obtain ⟨name, hname, rfl⟩ := List.mem_map.mp he
      refine ⟨name, hname, ?_⟩
      by_contra hgood
      rw [htest name hname, if_neg hgood] at hfails
      cases hfails
    · rintro ⟨name, hname, hbad⟩
      refine ⟨_, List.mem_map_of_mem hname, ?_⟩
      rw [htest name hname, if_pos hbad]
  constructor
  · intro hbad rest
    exact failingNode_of_step_none (hnone.mpr hbad)
  · intro hgood
    obtain ⟨d, hd⟩ : ∃ d, ((guardNode sid start names test).toNode engine models route).step c =
        some d := by
      apply Option.ne_none_iff_exists'.mp
      intro h
      rw [hnone.mp h] at hgood
      cases hgood
    refine ⟨d, ?_, fun rest => failingNode_of_step hd⟩
    intro k hk
    refine (Node.step_untouched hd ?_).symm
    rintro ⟨e, he, rfl⟩
    obtain ⟨name, -, rfl⟩ := List.mem_map.mp he
    have hkey : isGuardKey (start ++ sid ++ "__" ++ name) = true := by
      rw [isGuardKey, String.append_assoc, String.append_assoc]
      obtain rfl | rfl := hstart
      · rw [afterPrefix_append]
        rfl
      · rw [afterPrefix_append, Option.isSome_some, Bool.or_true]
    rw [outsideGuards, Set.mem_ofPred_eq, hkey] at hk
    cases hk

theorem any_congr {names : List String} (hn : ∀ name ∈ names, name ∈ outsideGuards)
    (h : Set.EqOn c d outsideGuards) (p : Option Value → Bool) :
    (names.any fun name => p (d name)) = names.any fun name => p (c name) := by
  rw [Bool.eq_iff_iff, List.any_eq_true, List.any_eq_true]
  apply exists_congr
  intro name
  apply and_congr_right
  intro hname
  rw [h (hn name hname)]

theorem unmatched_spec {s : RatingStep} {names : List String} {missIsError : Bool}
    (hguard : s.guard? = some (names, missIsError)) :
    names = s.produces ∧
    ((missIsError && s.produces.any fun name => c.read name = .null) = true →
      ∃ r, s.unmatched c = some r ∧ guardId r = some (missGuardPrefix ++ s.stepId)) ∧
    ((missIsError && s.produces.any fun name => c.read name = .null) = false →
      s.unmatched c = none) := by
  unfold RatingStep.guard? at hguard
  unfold RatingStep.unmatched
  cases hkind : s.kind with
  | table ref keyExpr onMiss interpolation =>
    rw [hkind] at hguard
    obtain ⟨rfl, rfl⟩ := Prod.mk.inj (Option.some.inj hguard)
    cases onMiss <;> simp +contextual [guardId]
  | lookup ref keyExpr asAt onMiss =>
    rw [hkind] at hguard
    obtain ⟨rfl, rfl⟩ := Prod.mk.inj (Option.some.inj hguard)
    cases onMiss <;> simp +contextual [guardId]
  | _ =>
    rw [hkind] at hguard
    cases hguard

/-- The guard of a gap fails where the gap refuses the quote. -/
theorem missGuard_spec (hg : GuardsApart engine models payloads steps) {s : RatingStep}
    (hs : s ∈ steps) {names : List String} {missIsError : Bool}
    (hguard : s.guard? = some (names, missIsError)) (hd : Set.EqOn c d outsideGuards) :
    (∀ r, s.unmatched c = some r → ∀ rest, failingNode engine models route
      ((if missIsError then [guardNode s.stepId missGuardPrefix names " == null"] else []) ++ rest)
        d = guardId r) ∧
    (s.unmatched c = none → ∃ d', Set.EqOn c d' outsideGuards ∧ ∀ rest,
      failingNode engine models route
        ((if missIsError then [guardNode s.stepId missGuardPrefix names " == null"] else []) ++
          rest) d = failingNode engine models route rest d') := by
  obtain ⟨rfl, hrefused, hkept⟩ := unmatched_spec (c := c) hguard
  have hmiss : (s.produces.any fun name => Context.read d name = .null) =
      s.produces.any fun name => Context.read c name = .null :=
    any_congr (hg.produced s hs) hd fun v => v.getD .null = .null
  cases missIsError with
  | false =>
    rw [hkept rfl]
    exact ⟨by rintro r ⟨⟩, fun _ => ⟨d, hd, fun rest => rfl⟩⟩
  | true =>
    obtain ⟨hbad, hgood⟩ := guardNode_spec models route s.stepId
      (fun name => Context.read d name = .null) (.inr rfl) fun name hname => by
        simpa using hg.miss s hs (by rw [hguard]; rfl) name hname d
    cases hany : s.produces.any fun name => Context.read c name = .null with
    | true =>
      obtain ⟨r, hr, hid⟩ := hrefused (by rw [hany]; rfl)
      rw [hr]
      refine ⟨?_, by rintro ⟨⟩⟩
      rintro r ⟨⟩ rest
      rw [hid]
      exact hbad (hmiss.trans hany) rest
    | false =>
      rw [hkept (by rw [hany]; rfl)]
      obtain ⟨d', hd', hrest⟩ := hgood (hmiss.trans hany)
      exact ⟨by rintro r ⟨⟩, fun _ => ⟨d', hd.trans hd', hrest⟩⟩

/-- The guards after a step fail where the step left something that refuses the quote. -/
theorem guardNodes_spec (hg : GuardsApart engine models payloads steps) {s : RatingStep}
    (hs : s ∈ steps) (hd : Set.EqOn c d outsideGuards) :
    (∀ r, s.refusedAt c = some r → ∀ rest,
      failingNode engine models route (s.guardNodes s.guard? ++ rest) d = guardId r) ∧
    (s.refusedAt c = none → ∃ d', Set.EqOn c d' outsideGuards ∧ ∀ rest,
      failingNode engine models route (s.guardNodes s.guard? ++ rest) d =
        failingNode engine models route rest d') := by
  cases hguard : s.guard? with
  | none =>
    have hrefused : s.refusedAt c = none := by
      unfold RatingStep.guard? at hguard
      cases hkind : s.kind <;> rw [hkind] at hguard <;>
        simp_all [RatingStep.refusedAt, RatingStep.unparseable, RatingStep.unmatched]
    rw [hrefused]
    exact ⟨by rintro r ⟨⟩, fun _ => ⟨d, hd, fun rest => rfl⟩⟩
  | some watched =>
    obtain ⟨names, missIsError⟩ := watched
    obtain ⟨rfl, -⟩ := unmatched_spec (c := c) hguard
    have hcellAny := any_congr (hg.produced s hs) hd fun v => v = some (.text unparseableCell)
    cases htable : s.isTable with
    | false =>
      have hcell : s.unparseable c = none := by
        unfold RatingStep.isTable at htable
        unfold RatingStep.unparseable
        cases hkind : s.kind <;> simp_all
      have hnodes : s.guardNodes (some (s.produces, missIsError)) =
          if missIsError then [guardNode s.stepId missGuardPrefix s.produces " == null"]
          else [] := by
        simp [RatingStep.guardNodes, htable]
      have hrefused : s.refusedAt c = s.unmatched c := by
        rw [RatingStep.refusedAt, hcell, Option.none_or]
      rw [hnodes, hrefused]
      exact missGuard_spec hg hs hguard hd
    | true =>
      obtain ⟨hbad, hgood⟩ := guardNode_spec models route s.stepId
        (fun name => d name = some (.text unparseableCell)) (.inl rfl)
        fun name hname => by simpa using hg.cell s hs htable name hname d
      have hnodes : ∀ rest, s.guardNodes (some (s.produces, missIsError)) ++ rest =
          guardNode s.stepId cellGuardPrefix s.produces (" == " ++ sentinelLiteral) ::
            ((if missIsError then [guardNode s.stepId missGuardPrefix s.produces " == null"]
              else []) ++ rest) := by
        intro rest
        simp [RatingStep.guardNodes, htable]
      have hcell : s.unparseable c =
          if s.produces.any fun name => c name = some (.text unparseableCell) then
            some (.cellUnparseable s.stepId)
          else none := by
        unfold RatingStep.isTable at htable
        unfold RatingStep.unparseable
        cases hkind : s.kind <;> simp_all
      simp only [hnodes]
      cases hany : s.produces.any fun name => c name = some (.text unparseableCell) with
      | true =>
        have hrefused : s.refusedAt c = some (.cellUnparseable s.stepId) := by
          rw [RatingStep.refusedAt, hcell, hany]
          rfl
        rw [hrefused]
        refine ⟨?_, by rintro ⟨⟩⟩
        rintro r ⟨⟩ rest
        exact hbad (hcellAny.trans hany) _
      | false =>
        have hrefused : s.refusedAt c = s.unmatched c := by
          rw [RatingStep.refusedAt, hcell, hany]
          rfl
        rw [hrefused]
        obtain ⟨d', hd', hrest⟩ := hgood (hcellAny.trans hany)
        simp only [hrest]
        exact missGuard_spec hg hs hguard (hd.trans hd')

end Guards

/-! ## The evaluation with guards -/

def liveNode (engine : Engine) (models : Models) (payloads : Payloads)
    (route : String → Option RatingStep) (s : RatingStep) : Node String Value :=
  WireNode.toNode engine models route ⟨s.stepId, s.translated engine payloads⟩

section Guarded

variable {steps l : List RatingStep} {c d : Context} {r : Refusal} {s : RatingStep}

theorem failingNode_report (hg : GuardsApart engine models payloads steps)
    (hd : Set.EqOn c d outsideGuards) :
    failingNode engine models (routed steps) (reportNodes steps) d =
      failingNode engine models (routed steps) (reportNodes steps) c := by
  have hreads := hg.reported
  unfold reportNodes at hreads ⊢
  split_ifs at hreads ⊢
  · rfl
  · have hstep := Node.step_eqOn (n := WireNode.toNode engine models (routed steps)
      (exactReadNode (exactReadNames steps))) hd (hreads _ List.mem_cons_self)
    rcases hstep with ⟨hc, hc'⟩ | ⟨e, e', hc, hc', -⟩
    · rw [failingNode_of_step_none hc, failingNode_of_step_none hc']
    · rw [failingNode_of_step hc, failingNode_of_step hc', failingNode_nil, failingNode_nil]

/-- The guarded chain fails at the guard of the first refusal, and without a refusal where the live
chain fails, by induction on the steps: the two contexts agree outside the guards. -/
theorem failingNode_guarded (hg : GuardsApart engine models payloads steps)
    (hl : ∀ s ∈ l, s ∈ steps ∧ s.isInterior = true) (hd : Set.EqOn c d outsideGuards) :
    (∀ r, firstRefused (liveNode engine models payloads (routed steps)) l c = some r →
      failingNode engine models (routed steps)
        (l.flatMap (·.wireNodes engine payloads RatingStep.guard?) ++ reportNodes steps) d =
        guardId r) ∧
    (firstRefused (liveNode engine models payloads (routed steps)) l c = none →
      failingNode engine models (routed steps)
        (l.flatMap (·.wireNodes engine payloads RatingStep.guard?) ++ reportNodes steps) d =
      failingNode engine models (routed steps)
        (l.flatMap (·.wireNodes engine payloads fun _ => none) ++ reportNodes steps) c) := by
  induction l generalizing c d with
  | nil => exact ⟨by rintro r ⟨⟩, fun _ => failingNode_report hg hd⟩
  | cons s l ih =>
    obtain ⟨⟨hs, hsi⟩, hl⟩ := List.forall_mem_cons.mp hl
    have hguards : (s :: l).flatMap (·.wireNodes engine payloads RatingStep.guard?) ++
        reportNodes steps = ⟨s.stepId, s.translated engine payloads⟩ :: (s.guardNodes s.guard? ++
          (l.flatMap (·.wireNodes engine payloads RatingStep.guard?) ++ reportNodes steps)) := by
      simp [RatingStep.wireNodes]
    have hplain : (s :: l).flatMap (·.wireNodes engine payloads fun _ => none) ++
        reportNodes steps = ⟨s.stepId, s.translated engine payloads⟩ ::
          (l.flatMap (·.wireNodes engine payloads fun _ => none) ++ reportNodes steps) := by
      rw [List.flatMap_cons, wireNodes_plain, List.append_assoc]
      rfl
    rw [hguards, hplain, firstRefused]
    rcases Node.step_eqOn (n := liveNode engine models payloads (routed steps) s) hd
      (hg.unread s hs hsi) with ⟨hc, hd⟩ | ⟨c', d', hc, hd, he⟩
    · rw [hc]
      refine ⟨by rintro r ⟨⟩, fun _ => ?_⟩
      exact (failingNode_of_step_none hd).trans (failingNode_of_step_none hc).symm
    · rw [hc, Option.bind_some, failingNode_of_step hd, failingNode_of_step hc]
      obtain ⟨hfires, hpasses⟩ :=
        guardNodes_spec hg hs (he.mono Set.subset_union_left)
      cases hrefused : s.refusedAt c' with
      | some r =>
        refine ⟨?_, by rintro ⟨⟩⟩
        rintro r' ⟨⟩
        exact hfires r hrefused _
      | none =>
        obtain ⟨d'', hd'', hrest⟩ := hpasses hrefused
        rw [Option.none_or, hrest]
        exact ih hl hd''

theorem refusedAt_cases (h : s.refusedAt c = some r) :
    r = .cellUnparseable s.stepId ∨ (r = .tableMiss s.stepId ∧ s.isTable = true) ∨
      (r = .lookupMiss s.stepId ∧ s.isTable = false) := by
  unfold RatingStep.refusedAt RatingStep.unparseable RatingStep.unmatched at h
  unfold RatingStep.isTable
  obtain h | ⟨-, h⟩ := Option.or_eq_some_iff.mp h
  · split at h
    · split_ifs at h
      exact .inl (Option.some.inj h).symm
    · cases h
  · split_ifs at h
    split at h
    · rename_i hkind
      rw [hkind]
      exact .inr (.inl ⟨(Option.some.inj h).symm, rfl⟩)
    · rename_i hkind
      rw [hkind]
      exact .inr (.inr ⟨(Option.some.inj h).symm, rfl⟩)
    · cases h

theorem firstRefused_mem {node : RatingStep → Node String Value}
    (h : firstRefused node l c = some r) : ∃ s ∈ l, ∃ d, s.refusedAt d = some r := by
  induction l generalizing c with
  | nil => cases h
  | cons s l ih =>
    obtain ⟨d, -, h⟩ := Option.bind_eq_some_iff.mp h
    obtain h | ⟨-, h⟩ := Option.or_eq_some_iff.mp h
    · exact ⟨s, List.mem_cons_self, d, h⟩
    · obtain ⟨t, ht, e, he⟩ := ih h
      exact ⟨t, List.mem_cons_of_mem _ ht, e, he⟩

theorem failingNode_mem {route : String → Option RatingStep} {chain : List WireNode} {id : String}
    (h : failingNode engine models route chain c = some id) : ∃ n ∈ chain, n.id = id := by
  obtain ⟨i, -, h⟩ := Option.bind_eq_some_iff.mp h
  obtain ⟨n, hn, rfl⟩ := Option.map_eq_some_iff.mp h
  exact ⟨n, List.mem_of_getElem? hn, rfl⟩

theorem loadEvaluation_eq_ok {algorithm : RatingAlgorithm} {ev : PurposeEvaluation}
    (h : loadEvaluation engine payloads algorithm = .ok ev) :
    ∃ order, dependencyOrder (algorithm.steps.filter RatingStep.isInterior) = .ok order ∧
      ev = ⟨algorithm,
        order.flatMap (·.wireNodes engine payloads fun _ => none) ++ reportNodes algorithm.steps,
        order.flatMap (·.wireNodes engine payloads RatingStep.guard?) ++
          reportNodes algorithm.steps⟩ := by
  simp only [loadEvaluation, Failure.bind_eq_ok, Failure.pure_eq_ok, toWire_eq_ok] at h
  obtain ⟨chain, ⟨order, horder, -, rfl⟩, guarded, ⟨order', horder', -, rfl⟩, rfl⟩ := h
  obtain rfl := Except.ok.inj (horder.symm.trans horder')
  exact ⟨order, horder, rfl⟩

/-- A failed evaluation is refused as the first refusal along the steps says, and without one at
the node that failed. -/
theorem engineRefusal_eq {algorithm : RatingAlgorithm} {ev : PurposeEvaluation}
    {order : List RatingStep} (hload : loadEvaluation engine payloads algorithm = .ok ev)
    (horder : dependencyOrder (algorithm.steps.filter RatingStep.isInterior) = .ok order)
    (hn : (algorithm.steps.map RatingStep.stepId).Nodup)
    (hnamed : ∀ s ∈ algorithm.steps, s.stepId ≠ "")
    (hg : GuardsApart engine models payloads algorithm.steps) :
    ev.engineRefusal engine models c =
      (firstRefused (liveNode engine models payloads (routed algorithm.steps)) order c).getD
        (.evaluationFailed (ev.reportedStep
          (failingNode engine models (routed algorithm.steps) ev.chain c))) := by
  obtain ⟨order', horder', rfl⟩ := loadEvaluation_eq_ok hload
  obtain rfl := Except.ok.inj (horder.symm.trans horder')
  have hmem : ∀ s ∈ order, s ∈ algorithm.steps ∧ s.isInterior = true := fun s hs =>
    List.mem_filter.mp ((dependencyOrder_perm horder).mem_iff.mp hs)
  obtain ⟨hfires, hlive⟩ := failingNode_guarded hg hmem (Set.eqOn_refl c outsideGuards)
  unfold PurposeEvaluation.engineRefusal
  dsimp only
  cases hfirst : firstRefused (liveNode engine models payloads (routed algorithm.steps)) order
    c with
  | some r =>
    obtain ⟨s, hs, d, hr⟩ := firstRefused_mem hfirst
    have hstep := (hmem s hs).1
    have hfind : (algorithm.steps.find? fun t => t.stepId = s.stepId) = some s := by
      simpa using find?_stepId hn hstep (fun _ => true) rfl
    rw [hfires r hfirst, Option.getD_some]
    rcases refusedAt_cases hr with rfl | ⟨rfl, htable⟩ | ⟨rfl, htable⟩
    · simp [guardId, afterPrefix_append, PurposeEvaluation.reportedStep, hnamed s hstep, hfind]
    · simp [guardId, afterPrefix_append, afterPrefix_cell_miss, PurposeEvaluation.reportedStep,
        hnamed s hstep, hfind, htable]
    · simp [guardId, afterPrefix_append, afterPrefix_cell_miss, PurposeEvaluation.reportedStep,
        hnamed s hstep, hfind, htable]
  | none =>
    rw [hlive hfirst, Option.getD_none]
    cases hid : failingNode engine models (routed algorithm.steps)
      (order.flatMap (·.wireNodes engine payloads fun _ => none) ++ reportNodes algorithm.steps)
      c with
    | none => rfl
    | some id =>
      have houtside : isGuardKey id = false := by
        obtain ⟨n, hnode, rfl⟩ := failingNode_mem hid
        obtain hnode | hnode := List.mem_append.mp hnode
        · obtain ⟨s, hs, hnode⟩ := List.mem_flatMap.mp hnode
          rw [wireNodes_plain, List.mem_singleton] at hnode
          rw [hnode]
          exact hg.ids s (hmem s hs).1
        · unfold reportNodes at hnode
          split_ifs at hnode
          · cases hnode
          · rw [List.mem_singleton.mp hnode]
            exact (by decide : isGuardKey "__exact_reads" = false)
      rw [isGuardKey, Bool.or_eq_false_iff, Option.isSome_eq_false_iff, Option.isSome_eq_false_iff,
        Option.isNone_iff_eq_none, Option.isNone_iff_eq_none] at houtside
      simp [houtside.1, houtside.2]

end Guarded

/-! ## Model calls -/

/-- Some model call along the steps answers with a message. -/
def CallFailed (models : Models) (node : RatingStep → Node String Value) :
    List RatingStep → Context → Prop
  | [], _ => False
  | s :: l, c => (∃ message, s.callModel models c = some (s.modelCallFailure message)) ∨
      ∃ d, (node s).step c = some d ∧ CallFailed models node l d

section Calls

variable {steps l : List RatingStep} {c d r : Context} {s : RatingStep}

theorem callModel_failed_iff (hmark : modelCallErrorKey ∉ s.produces) {es : List (String × Value)}
    (h : s.callModel models c = some es) :
    modelCallErrorKey ∈ es.map Prod.fst ↔
      ∃ message, s.callModel models c = some (s.modelCallFailure message) := by
  constructor
  · intro hkey
    rw [h]
    unfold RatingStep.callModel at h
    split at h
    · dsimp only at h
      split at h
      · exact ⟨_, h.symm⟩
      · split at h
        · cases h
        · exact ⟨_, h.symm⟩
        · obtain ⟨v, -, rfl⟩ := Option.map_eq_some_iff.mp h
          obtain ⟨entry, hentry, hname⟩ := List.mem_map.mp hkey
          obtain ⟨name, hproduced, rfl⟩ := List.mem_map.mp hentry
          exact absurd (hname ▸ hproduced) hmark
    · cases h
  · rintro ⟨message, hm⟩
    obtain rfl := Option.some.inj (h.symm.trans hm)
    simp [RatingStep.modelCallFailure]

theorem generated_ne_mark {k : String} (h : k ∈ s.generated) : k ≠ modelCallErrorKey := by
  rintro rfl
  rcases generated_cases h with h | h | h | h <;>
    simpa [modelCallErrorKey, violatedKey, beforeKey, minKey, maxKey] using
      congrArg (fun s => s.toList.reverse) h

/-- A step leaves a message exactly where it is a model call that failed. -/
theorem mark_of_step (hn : (steps.map RatingStep.stepId).Nodup) (hs : s ∈ steps)
    (hmark : modelCallErrorKey ∉ s.produces) (hempty : s.guard?.isSome → s.produces ≠ [])
    (hc : c modelCallErrorKey = none)
    (h : (liveNode engine models payloads (routed steps) s).step c = some d) :
    (d modelCallErrorKey).isSome ↔
      ∃ message, s.callModel models c = some (s.modelCallFailure message) := by
  cases hcall : s.isModelCall with
  | false =>
    have hnone : s.callModel models c = none := by
      unfold RatingStep.isModelCall at hcall
      unfold RatingStep.callModel
      split at hcall
      · cases hcall
      · rfl
    have huntouched : d modelCallErrorKey = c modelCallErrorKey := by
      refine Node.step_untouched h fun hw => ?_
      rcases writes_translated hn hs hempty hw with hw | hw | ⟨hw, -⟩
      · exact hmark hw
      · exact generated_ne_mark hw rfl
      · rw [hcall] at hw
        cases hw
    simp [huntouched, hc, hnone]
  | true =>
    obtain ⟨o, ho, rfl⟩ := Node.step_eq_some.mp h
    obtain ⟨es, hes, rfl⟩ := Option.map_eq_some_iff.mp ho
    have hcontent : s.translated engine payloads = .modelCall := by
      unfold RatingStep.isModelCall at hcall
      split at hcall
      · rename_i hkind
        simp [RatingStep.translated, RatingStep.content, hkind, Except.toOption]
      · cases hcall
    have hroute : routed steps s.stepId = some s := (routed_eq_some hn).mpr ⟨hs, hcall, rfl⟩
    have hentries : s.callModel models c = some es := by
      rw [hcontent, WireContent.entries, hroute] at hes
      exact hes
    rw [← callModel_failed_iff hmark hentries, Node.merge_isSome, ofEntries_isSome_iff]
    simp [hc]

theorem mark_of_run (hn : (steps.map RatingStep.stepId).Nodup)
    (hl : ∀ s ∈ l, s ∈ steps ∧ modelCallErrorKey ∉ s.produces ∧
      (s.guard?.isSome → s.produces ≠ []))
    (hc : c modelCallErrorKey = none)
    (h : Node.run (l.map (liveNode engine models payloads (routed steps))) c = some r) :
    (r modelCallErrorKey).isSome ↔
      CallFailed models (liveNode engine models payloads (routed steps)) l c := by
  induction l generalizing c with
  | nil =>
    obtain rfl := Option.some.inj h
    simp [CallFailed, hc]
  | cons s l ih =>
    obtain ⟨⟨hs, hmark, hempty⟩, hl⟩ := List.forall_mem_cons.mp hl
    obtain ⟨d, hd, hrun⟩ := Option.bind_eq_some_iff.mp h
    have hstep := mark_of_step hn hs hmark hempty hc hd
    rw [CallFailed, ← hstep]
    cases hdm : d modelCallErrorKey with
    | some v => simp [Node.run_isSome hrun (by simp [hdm] : (d modelCallErrorKey).isSome)]
    | none => simp [ih hl hdm hrun, hd]

end Calls

/-! ## The refusals of a quote -/

/-- The declared names of an algorithm are apart from the names that reports of failures go by. -/
structure NamesApart (steps : List RatingStep) : Prop where
  named : ∀ s ∈ steps, s.stepId ≠ ""
  unmarked : ∀ s ∈ steps, modelCallErrorKey ∉ s.produces
  answered : ∀ s ∈ steps, s.guard?.isSome → s.produces ≠ []

/-- What the tables and the lookups left in a returned result: the first cell in the listed order
that cannot be read, or else the first gap. -/
def resultRefusal (steps : List RatingStep) (result : Context) : Option Refusal :=
  (steps.findSome? (RatingStep.unparseable result)).or
    (steps.findSome? (RatingStep.missed result))

section Quotes

variable {host : Host} {bundle : CompiledBundle} {ctx : QuoteContext} {algorithm : RatingAlgorithm}
  {order : List RatingStep} {c result : Context}

theorem run_of_evaluateChain (h : evaluateChain engine models (routed algorithm.steps)
      (order.flatMap (·.wireNodes engine payloads fun _ => none) ++ reportNodes algorithm.steps) c =
        some result) :
    ∃ r, Node.run (order.map (liveNode engine models payloads (routed algorithm.steps))) c =
      some r ∧ result modelCallErrorKey = r modelCallErrorKey := by
  have hchain : (order.flatMap (·.wireNodes engine payloads fun _ => none) ++
      reportNodes algorithm.steps).map (WireNode.toNode engine models (routed algorithm.steps)) =
      order.map (liveNode engine models payloads (routed algorithm.steps)) ++
        (reportNodes algorithm.steps).map
          (WireNode.toNode engine models (routed algorithm.steps)) := by
    simp only [wireNodes_plain, ← List.map_eq_flatMap, List.map_append, List.map_map]
    rfl
  have hrun : Node.run ((order.flatMap (·.wireNodes engine payloads fun _ => none) ++
      reportNodes algorithm.steps).map (WireNode.toNode engine models (routed algorithm.steps))) c =
      some result := h
  rw [hchain, Node.run_append] at hrun
  obtain ⟨r, hr, hreport⟩ := Option.bind_eq_some_iff.mp hrun
  refine ⟨r, hr, Node.run_untouched hreport ?_⟩
  intro n hnode hwrites
  obtain ⟨m, hm, rfl⟩ := List.mem_map.mp hnode
  unfold reportNodes at hm
  split_ifs at hm
  · cases hm
  · obtain rfl := List.mem_singleton.mp hm
    obtain ⟨e, he, hkey⟩ := hwrites
    obtain ⟨name, -, rfl⟩ := List.mem_map.mp he
    have hhead := congrArg (fun text => text.toList.head?) hkey
    simp [exactKey, exactPrefix, modelCallErrorKey] at hhead

theorem scoreOne_eq (hquote : checkQuote host bundle ctx = .ok ())
    (hversion : checkRatingVersion ctx = .ok ()) (hctx : quoteContext host bundle ctx = .ok c)
    (hbinds : (ctx.inputs.keys.all fun k => engine.binds (c.read k)) = true) :
    scoreOne host engine models bundle ctx =
      (bundle.evaluationFor ctx.purpose).evaluate engine models c >>= buildScoringResult
        (bundle.evaluationFor ctx.purpose).algorithm.toRatingAlgorithmDraft := by
  have hscore : scoreContext engine models bundle ctx c =
      (bundle.evaluationFor ctx.purpose).evaluate engine models c >>= buildScoringResult
        (bundle.evaluationFor ctx.purpose).algorithm.toRatingAlgorithmDraft := by
    unfold scoreContext
    dsimp only
    rw [if_pos hbinds]
  rw [scoreOne, hquote, hversion, hctx]
  exact hscore

theorem buildScoringResult_refused {draft : RatingAlgorithmDraft} {r : Refusal}
    (h : checkResult draft result = .error (.coded r)) :
    buildScoringResult draft result = .error (.coded r) := by
  rw [buildScoringResult, h]
  rfl

theorem checkResult_marked {draft : RatingAlgorithmDraft} {detail : Value}
    (h : result modelCallErrorKey = some detail) :
    checkResult draft result = .error (.coded (.modelCall detail)) := by
  rw [checkResult, checkModelCallSentinel, h]
  rfl

theorem checkResult_refused {draft : RatingAlgorithmDraft} {r : Refusal}
    (hmark : result modelCallErrorKey = none) (h : resultRefusal draft.steps result = some r) :
    checkResult draft result = .error (.coded r) := by
  have hsentinel : checkModelCallSentinel result = .ok () := by
    rw [checkModelCallSentinel, hmark]
  rw [checkResult, hsentinel, checkUnparseableCells, checkLookupMisses, refuseFirst, refuseFirst]
  obtain h | ⟨hnone, h⟩ := Option.or_eq_some_iff.mp h
  · rw [h]
    rfl
  · rw [hnone, h]
    rfl

/-- A quote that is refused because a step failed is refused with the message of a model call where
one failed and the engine returns; else with what its tables and lookups left, which is the first in
the listed order where the engine returns, and the first in dependency order where it raises; and
else at the node that raised. -/
theorem refusal_names (host : Host) (engine : Engine) (models : Models) (payloads : Payloads)
    (bundle : CompiledBundle) (ctx : QuoteContext) (c : Context) (algorithm : RatingAlgorithm)
    (order : List RatingStep)
    (hload : loadEvaluation engine payloads algorithm = .ok (bundle.evaluationFor ctx.purpose))
    (horder : dependencyOrder (algorithm.steps.filter RatingStep.isInterior) = .ok order)
    (hnames : NamesApart algorithm.steps) (hg : GuardsApart engine models payloads algorithm.steps)
    (hquote : checkQuote host bundle ctx = .ok ()) (hversion : checkRatingVersion ctx = .ok ())
    (hctx : quoteContext host bundle ctx = .ok c)
    (hbinds : (ctx.inputs.keys.all fun k => engine.binds (c.read k)) = true)
    (hc : c modelCallErrorKey = none) :
    let node := liveNode engine models payloads (routed algorithm.steps)
    let chain := (bundle.evaluationFor ctx.purpose).chain
    (∀ result, evaluateChain engine models (routed algorithm.steps) chain c = some result →
      (CallFailed models node order c →
        ∃ detail, scoreOne host engine models bundle ctx = .error (.coded (.modelCall detail))) ∧
      (¬ CallFailed models node order c → ∀ r, resultRefusal algorithm.steps result = some r →
        scoreOne host engine models bundle ctx = .error (.coded r))) ∧
    (evaluateChain engine models (routed algorithm.steps) chain c = none →
      ¬ CallFailed models node order c →
      scoreOne host engine models bundle ctx = .error (.coded
        ((firstRefused node order c).getD (.evaluationFailed
          ((failingNode engine models (routed algorithm.steps) chain c).bind fun id =>
            (algorithm.steps.find? fun s => s.stepId = id).map RatingStep.stepId))))) := by
  intro node chain
  have hn : (algorithm.steps.map RatingStep.stepId).Nodup :=
    (graphInvariantIssues_eq_nil.mp algorithm.graph_ok).ids_nodup.of_append_left
  have hrefusal := engineRefusal_eq (c := c) hload horder hn hnames.named hg
  obtain ⟨order', horder', hev⟩ := loadEvaluation_eq_ok hload
  obtain rfl := Except.ok.inj (horder.symm.trans horder')
  have hmem : ∀ s ∈ order, s ∈ algorithm.steps := fun s hs =>
    (List.mem_filter.mp ((dependencyOrder_perm horder).mem_iff.mp hs)).1
  have halgorithm : (bundle.evaluationFor ctx.purpose).algorithm = algorithm := by rw [hev]
  rw [scoreOne_eq hquote hversion hctx hbinds, halgorithm]
  refine ⟨fun result hresult => ?_, fun hraised hcalls => ?_⟩
  · have hevaluate : (bundle.evaluationFor ctx.purpose).evaluate engine models c = .ok result := by
      unfold PurposeEvaluation.evaluate
      rw [halgorithm, show evaluateChain engine models (routed algorithm.steps)
        (bundle.evaluationFor ctx.purpose).chain c = some result from hresult]
    have hmark : (result modelCallErrorKey).isSome ↔ CallFailed models node order c := by
      have hchain : chain = order.flatMap (·.wireNodes engine payloads fun _ => none) ++
          reportNodes algorithm.steps := by
        rw [show chain = (bundle.evaluationFor ctx.purpose).chain from rfl, hev]
      rw [hchain] at hresult
      obtain ⟨r, hrun, hsame⟩ := run_of_evaluateChain hresult
      rw [hsame]
      exact mark_of_run hn (fun s hs => ⟨hmem s hs, hnames.unmarked s (hmem s hs),
        hnames.answered s (hmem s hs)⟩) hc hrun
    rw [hevaluate, ← hmark]
    refine ⟨fun hfailed => ?_, fun hcalls r hr => ?_⟩
    · obtain ⟨detail, hdetail⟩ := Option.isSome_iff_exists.mp hfailed
      exact ⟨detail, buildScoringResult_refused (checkResult_marked hdetail)⟩
    · exact buildScoringResult_refused (checkResult_refused (by simpa using hcalls) hr)
  · have hevaluate : (bundle.evaluationFor ctx.purpose).evaluate engine models c =
        .error (.coded ((bundle.evaluationFor ctx.purpose).engineRefusal engine models c)) := by
      unfold PurposeEvaluation.evaluate
      rw [halgorithm, show evaluateChain engine models (routed algorithm.steps)
        (bundle.evaluationFor ctx.purpose).chain c = none from hraised]
    rw [hevaluate, hrefusal, PurposeEvaluation.reportedStep, halgorithm]
    rfl

end Quotes

/-! ## A table that misses -/

section Example

def beforeSuffix (suffix text : String) : Option String :=
  (afterPrefix (String.ofList suffix.toList.reverse) (String.ofList text.toList.reverse)).map
    fun t => String.ofList t.toList.reverse

theorem beforeSuffix_append (t suffix : String) : beforeSuffix suffix (t ++ suffix) = some t := by
  rw [beforeSuffix, String.toList_append, List.reverse_append, String.ofList_append,
    afterPrefix_append]
  simp

theorem beforeSuffix_eq_none {suffix text : String} (h : ¬ suffix.toList <:+ text.toList) :
    beforeSuffix suffix text = none := by
  rw [beforeSuffix, afterPrefix, if_neg, Option.map_none]
  simpa [List.isPrefixOf_iff_prefix, List.reverse_prefix] using h

def missTest : String := " == null ? 1 * null : true"
def cellTest : String := " == " ++ sentinelLiteral ++ " ? 1 * null : true"

/-- The engine on plain texts, on the tests of guards and on tables of which no row matches. -/
def guardingEngine : Engine where
  binds v := match v with | .decimal _ => false | _ => true
  evaluate text c := match beforeSuffix missTest text, beforeSuffix cellTest text with
    | some name, _ => if c.read name = .null then none else some (.bool true)
    | none, some name => if c name = some (.text unparseableCell) then none else some (.bool true)
    | none, none => (c (plainName text)).bind (plainValue text)
  decide _ _ _ := some none
  reads text :=
    {((beforeSuffix missTest text).or (beforeSuffix cellTest text)).getD (plainName text)}
  evaluate_congr text c c' h := by
    cases hmiss : beforeSuffix missTest text with
    | some name =>
      have hname : c name = c' name := h (by rw [hmiss]; rfl)
      have hread : Context.read c name = Context.read c' name := by
        rw [Context.read, Context.read, hname]
      dsimp only
      rw [hread]
    | none =>
      cases hcell : beforeSuffix cellTest text with
      | some name =>
        have hname : c name = c' name := h (by rw [hmiss, hcell]; rfl)
        dsimp only
        rw [hname]
      | none =>
        have hname : c (plainName text) = c' (plainName text) := h (by rw [hmiss, hcell]; rfl)
        dsimp only
        rw [hname]
  decide_congr _ _ _ _ _ := rfl

theorem missTest_eq : missTest = " == null" ++ " ? 1 * null : true" := rfl

theorem guardingEngine_reads {text : String} (h : text.toList.length ≤ 16) :
    guardingEngine.reads text = {plainName text} := by
  have hend : 16 < " ? 1 * null : true".toList.length := by decide
  have hnone (start : String) : beforeSuffix (start ++ " ? 1 * null : true") text = none := by
    refine beforeSuffix_eq_none fun hsuffix => ?_
    have hle := hsuffix.length_le
    rw [String.toList_append, List.length_append] at hle
    omega
  change {((beforeSuffix missTest text).or (beforeSuffix cellTest text)).getD (plainName text)} = _
  rw [missTest_eq, hnone, cellTest, hnone]
  rfl

theorem guardingEngine_miss {text name : String} (h : beforeSuffix missTest text = some name)
    (c : Context) : guardingEngine.evaluate text c =
      if c.read name = .null then none else some (.bool true) := by
  simp only [guardingEngine, h]

theorem guardingEngine_cell {text name : String} (hmiss : beforeSuffix missTest text = none)
    (hcell : beforeSuffix cellTest text = some name) (c : Context) :
    guardingEngine.evaluate text c =
      if c name = some (.text unparseableCell) then none else some (.bool true) := by
  simp only [guardingEngine, hmiss, hcell]

/-- A price that reads the rate of a table of which no row matches. -/
def pricedTable : RatingAlgorithm where
  slug := "motor"
  version := 1
  inputContract := [{ name := "age", type := .int }]
  outputs := [{ name := "payable_premium_minor", type := "money_minor" }]
  steps := [ageStep, tableStep .error, priceStep "rate", payableStep]
  subGraphs := []
  graph_ok := by decide

def plainHost : Host := ⟨fun _ _ => some true, fun _ => true⟩

def midsummer : Date where
  year := 2024
  month := 6
  day := 24
  year_ok := by decide
  month_ok := by decide
  day_ok := by decide

def thirty : QuoteContext where
  purpose := .newBusiness
  effectiveDate := midsummer
  inputs := ⟨[("age", .int 30)], by decide⟩
  ratingVersionRef := some ⟨"rating_version", "motor", 1⟩

/-- The bundle of one algorithm, as it is loaded. -/
def bundleOf (engine : Engine) (a : RatingAlgorithm) : CompiledBundle where
  contentHash := "motor"
  base := (loadEvaluation engine emptyTables a).toOption.getD ⟨a, [], []⟩
  purposes _ := none

theorem loaded_bundleOf {a : RatingAlgorithm}
    (h : (loadEvaluation engine emptyTables a).toOption.isSome) :
    loadEvaluation engine emptyTables a =
      .ok ((bundleOf engine a).evaluationFor thirty.purpose) := by
  unfold CompiledBundle.evaluationFor bundleOf
  cases hload : loadEvaluation engine emptyTables a with
  | error e => simp [hload, Except.toOption] at h
  | ok ev => rfl

theorem pricedTable_guards :
    GuardsApart guardingEngine noModels emptyTables pricedTable.steps where
  cell := by
    intro s hs htable name hname c
    have htext : name = "rate" := by
      fin_cases hs
      · cases htable
      · exact List.mem_singleton.mp hname
      · cases htable
      · cases htable
    subst htext
    have hmiss : beforeSuffix missTest
        ("rate" ++ (" == " ++ sentinelLiteral) ++ " ? 1 * null : true") = none := by
      have hlast : ¬ " == null".toList <:+ ("rate" ++ (" == " ++ sentinelLiteral)).toList := by
        decide
      refine beforeSuffix_eq_none fun hsuffix => hlast ?_
      rwa [missTest_eq, String.toList_append, String.toList_append, List.suffix_append_self_iff] at hsuffix
    have hcell : beforeSuffix cellTest
        ("rate" ++ (" == " ++ sentinelLiteral) ++ " ? 1 * null : true") = some "rate" := by
      rw [String.append_assoc, ← cellTest, beforeSuffix_append]
    exact guardingEngine_cell hmiss hcell c
  miss := by
    intro s hs hguard name hname c
    have htext : name = "rate" := by
      fin_cases hs
      · cases hguard
      · exact List.mem_singleton.mp hname
      · cases hguard
      · cases hguard
    subst htext
    have hmiss : beforeSuffix missTest ("rate" ++ " == null" ++ " ? 1 * null : true") =
        some "rate" := by
      rw [String.append_assoc, ← missTest_eq, beforeSuffix_append]
    exact guardingEngine_miss hmiss c
  unread := by
    intro s hs hinterior k hk
    fin_cases hs
    · cases hinterior
    · obtain ⟨t, ht, hk⟩ := hk
      obtain rfl := List.mem_singleton.mp ht
      rw [guardingEngine_reads (by decide)] at hk
      obtain rfl := hk
      change isGuardKey _ = false
      decide
    · obtain ⟨e, he, hk⟩ := hk
      obtain rfl := List.mem_singleton.mp he
      rw [guardingEngine_reads (by decide)] at hk
      obtain rfl := hk
      change isGuardKey _ = false
      decide
    · cases hinterior
  reported := by
    intro n hn k hk
    obtain rfl := List.mem_singleton.mp hn
    obtain ⟨e, he, hk⟩ := hk
    obtain rfl := List.mem_singleton.mp he
    rw [guardingEngine_reads (by decide)] at hk
    obtain rfl := hk
    change isGuardKey _ = false
    decide
  produced := by
    have hall : ∀ s ∈ pricedTable.steps, ∀ name ∈ s.produces, isGuardKey name = false := by
      decide
    exact hall
  ids := by
    have hall : ∀ s ∈ pricedTable.steps, isGuardKey s.stepId = false := by decide
    exact hall

theorem pricedTable_names : NamesApart pricedTable.steps where
  named := by decide
  unmarked := by decide
  answered := by decide

theorem not_callFailed {node : RatingStep → Node String Value} {l : List RatingStep}
    {c : Context} (hl : ∀ s ∈ l, s.isModelCall = false) : ¬ CallFailed models node l c := by
  induction l generalizing c with
  | nil => exact id
  | cons s l ih =>
    obtain ⟨hs, hl⟩ := List.forall_mem_cons.mp hl
    rintro (⟨message, hm⟩ | ⟨d, -, hd⟩)
    · have hnone : s.callModel models c = none := by
        unfold RatingStep.isModelCall at hs
        unfold RatingStep.callModel
        split at hs
        · cases hs
        · rfl
      rw [hnone] at hm
      cases hm
    · exact ih hl hd

/-- The price cannot be evaluated without the rate, and the refusal names the table that missed. -/
theorem pricedTable_named :
    scoreOne plainHost guardingEngine noModels (bundleOf guardingEngine pricedTable) thirty =
      .error (.coded (.tableMiss "t")) := by
  have hload := @loaded_bundleOf guardingEngine pricedTable (by decide)
  have hnames := refusal_names plainHost guardingEngine noModels emptyTables
    (bundleOf guardingEngine pricedTable) thirty
    (stampedContext thirty [("age", .int 30)]) pricedTable
    [tableStep .error, priceStep "rate"] hload (by rfl) pricedTable_names pricedTable_guards
    (by rfl) (by rfl) (by rfl) (by rfl) (by rfl)
  have hraised : evaluateChain guardingEngine noModels (routed pricedTable.steps)
      ((bundleOf guardingEngine pricedTable).evaluationFor thirty.purpose).chain
      (stampedContext thirty [("age", .int 30)]) = none :=
    Option.isNone_iff_eq_none.mp (by decide)
  have hfirst : firstRefused (liveNode guardingEngine noModels emptyTables
      (routed pricedTable.steps)) [tableStep .error, priceStep "rate"]
      (stampedContext thirty [("age", .int 30)]) = some (.tableMiss "t") := by decide
  have hrefused := hnames.2 hraised (not_callFailed (by decide))
  rw [hfirst] at hrefused
  exact hrefused

/-- Two rows are missed, and the refusal names the one whose step is listed first. -/
theorem listing_names :
    Failure.error? (scoreOne plainHost plainEngine noModels
        (bundleOf plainEngine (sideTables .error)) thirty) = some (.coded (.tableMiss "t")) ∧
      Failure.error? (scoreOne plainHost plainEngine noModels (bundleOf plainEngine
        ((sideTables .error).reordered _ (lookupFirst_perm .error))) thirty) =
        some (.coded (.lookupMiss "l")) := by
  refine ⟨?_, ?_⟩ <;> decide

end Example

end GiPricing
