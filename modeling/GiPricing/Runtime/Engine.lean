import GiPricing.Dataflow.Run
import GiPricing.Rating.Inline
import GiPricing.Score.Scoring

/-! # The engine

A chain of nodes is evaluated over a context: each node receives the context of the one
before and merges what it emits over it, and a node that fails ends the evaluation. What an
expression text or a decision table gives is the engine's; it depends on the names read.
-/

namespace GiPricing

open Decimal Dataflow

/-! ## The wire -/

structure WireExpression where
  key : String
  value : String
  deriving DecidableEq, Repr

/-- A row of a decision table: one cell for each input, and the text of its output. -/
structure WireRule where
  cells : List String
  output : String
  deriving DecidableEq, Repr

/-- What a node computes. A decision table has the hit policy `first`, one input for each field
text and one output. -/
inductive WireContent
  | expressions (entries : List WireExpression)
  | decisionTable (fields : List String) (output : String) (rules : List WireRule)
  | modelCall
  deriving DecidableEq, Repr

structure WireNode where
  id : String
  content : WireContent
  deriving DecidableEq, Repr

def tableTexts (fields : List String) (rules : List WireRule) : List String :=
  fields ++ rules.flatMap fun r => r.output :: r.cells

/-- The engine. `evaluate` gives the value of an expression text, or fails; `decide` gives the
output of a decision table, absent when no row of it is output, or fails; `binds` tells which
values its binding converts. -/
structure Engine where
  binds : Value → Bool
  evaluate : String → Context → Option Value
  decide : List String → List WireRule → Context → Option (Option Value)
  reads : String → Set String
  evaluate_congr : ∀ text c c', Set.EqOn c c' (reads text) → evaluate text c = evaluate text c'
  decide_congr : ∀ fields rules c c', (∀ t ∈ tableTexts fields rules, Set.EqOn c c' (reads t)) →
    decide fields rules c = decide fields rules c'

/-! ## Model calls -/

/-- What a pinned model answers: it raises, is refused with a message, or predicts a number,
which crosses to the engine as a float. -/
inductive Prediction
  | raised
  | refused (message : String)
  | scored (exact crossed : Number)
  deriving DecidableEq

/-- The pinned models: the slugs a step requires, the slugs scored from the context when no
mapped name is in it, and the prediction from a row of features, where a later entry of a slug
overrides an earlier one. -/
structure Models where
  required : RatingStep → List String
  featureOrder : RatingStep → List String
  predict : RatingStep → List (String × Value) → List (String × Value) → Prediction

namespace RatingStep

variable (s : RatingStep)

def isModelCall : Bool := match s.kind with | .modelCall .. => true | _ => false

/-- `_model_call_failure`: a zero for every produced name, and the message under its own key. -/
def modelCallFailure (message : String) : List (String × Value) :=
  s.produces.map (·, .int 0) ++ [(modelCallErrorKey, .text ("MODEL_CALL_FAILED: " ++ message))]

def absentMessage (absent : List String) : String :=
  "MODEL_CALL_REQUIRED_INPUT_ABSENT: step " ++ s.stepId ++ " maps " ++ ", ".intercalate absent ++
    " onto a required model input, and the scoring context holds no such name (FR-222)"

/-- The value a prediction is carried as: a legacy step rounds it to a whole unit. -/
def predictedValue (resultType : Option String) (exact crossed : Number) : Option Value :=
  match resultType with
  | some _ => some (.float crossed)
  | none => exact.toRat?.map fun q => .int (roundInt .halfEven q)

/-- The handler of a model call: the entries it lays over the context, or a failure. -/
def callModel (models : Models) (c : Context) : Option (List (String × Value)) :=
  match s.kind with
  | .modelCall _ _ featureMap resultType =>
    let absent := sortedSet ((featureMap.entries.filter fun e =>
      (c e.1).isNone && (models.required s).contains e.2).map Prod.fst)
    if absent ≠ [] then some (s.modelCallFailure (s.absentMessage absent))
    else
      let row := featureMap.entries.filterMap fun e => (c e.1).map (e.2, ·)
      let fallback := if row = [] then (models.featureOrder s).map fun slug => (slug, c.read slug)
        else []
      match models.predict s row fallback with
      | .raised => none
      | .refused message => some (s.modelCallFailure message)
      | .scored exact crossed =>
        (predictedValue resultType exact crossed).map fun v => s.produces.map (·, v)
  | _ => none

def modelReads (models : Models) : Set String :=
  {k | k ∈ s.featureNames ∨ k ∈ models.featureOrder s}

theorem callModel_congr {models : Models} {c c' : Context}
    (h : Set.EqOn c c' (s.modelReads models)) : s.callModel models c = s.callModel models c' := by
  unfold callModel
  cases hk : s.kind with
  | modelCall target mode featureMap resultType =>
    have hname : ∀ e ∈ featureMap.entries, c e.1 = c' e.1 := fun e he =>
      h (Or.inl (by rw [featureNames, hk]; exact List.mem_map_of_mem he))
    have habsent : (featureMap.entries.filter fun e =>
        (c e.1).isNone && (models.required s).contains e.2) = featureMap.entries.filter fun e =>
        (c' e.1).isNone && (models.required s).contains e.2 :=
      List.filter_congr fun e he => by rw [hname e he]
    have hrow : (featureMap.entries.filterMap fun e => (c e.1).map (e.2, ·)) =
        featureMap.entries.filterMap fun e => (c' e.1).map (e.2, ·) :=
      List.filterMap_congr fun e he => by rw [hname e he]
    have horder : ((models.featureOrder s).map fun slug => (slug, c.read slug)) =
        (models.featureOrder s).map fun slug => (slug, c'.read slug) :=
      List.map_congr_left fun slug hs => by rw [Context.read, Context.read, h (Or.inr hs)]
    simp only [habsent, hrow, horder]
  | _ => rfl

theorem keys_callModel {models : Models} {c : Context} {l : List (String × Value)}
    (h : s.callModel models c = some l) :
    l.map Prod.fst = s.produces ∨ l.map Prod.fst = s.produces ++ [modelCallErrorKey] := by
  have hfail : ∀ m, (s.modelCallFailure m).map Prod.fst = s.produces ++ [modelCallErrorKey] := by
    intro m
    simp [modelCallFailure, Function.comp_def]
  unfold callModel at h
  split at h
  · simp only at h
    split at h
    · rw [← Option.some.inj h, hfail]; exact Or.inr rfl
    · split at h
      · cases h
      · rw [← Option.some.inj h, hfail]; exact Or.inr rfl
      · obtain ⟨v, -, rfl⟩ := Option.map_eq_some_iff.mp h
        exact Or.inl (by simp [Function.comp_def])
  · cases h

end RatingStep

/-! ## Evaluation -/

def routed (steps : List RatingStep) (id : String) : Option RatingStep :=
  steps.find? fun s => s.isModelCall && s.stepId = id

variable (engine : Engine) (models : Models) (route : String → Option RatingStep)

namespace WireContent

/-- The entries a node lays over the context it received, or a failure. -/
def entries (id : String) (c : Context) : WireContent → Option (List (String × Value))
  | expressions es => es.mapM fun e => (engine.evaluate e.value c).map (e.key, ·)
  | decisionTable fields output rules =>
    (engine.decide fields rules c).map fun v => v.toList.map (output, ·)
  | modelCall => (route id).bind fun s => s.callModel models c

/-- The names a node reads. -/
def reads (id : String) : WireContent → Set String
  | expressions es => {k | ∃ e ∈ es, k ∈ engine.reads e.value}
  | decisionTable fields _ rules => {k | ∃ t ∈ tableTexts fields rules, k ∈ engine.reads t}
  | modelCall => {k | ∃ s, route id = some s ∧ k ∈ s.modelReads models}

/-- The names a node may write. -/
def writes (id : String) : WireContent → Set String
  | expressions es => {k | ∃ e ∈ es, e.key = k}
  | decisionTable _ output _ => {output}
  | modelCall => {k | ∃ s, route id = some s ∧ (k ∈ s.produces ∨ k = modelCallErrorKey)}

/-- The names a node that succeeds writes. -/
def certain (id : String) : WireContent → Set String
  | expressions es => {k | ∃ e ∈ es, e.key = k}
  | decisionTable .. => ∅
  | modelCall => {k | ∃ s, route id = some s ∧ k ∈ s.produces}

variable {engine models route} {id : String} {c c' : Context} {l : List (String × Value)}

theorem keys_expressions {es : List WireExpression}
    (h : (expressions es).entries engine models route id c = some l) :
    l.map Prod.fst = es.map WireExpression.key := by
  induction es generalizing l with
  | nil => rw [← Option.some.inj h]; rfl
  | cons e es ih =>
    simp only [entries, List.mapM_cons, Option.bind_eq_bind, Option.bind_eq_some_iff,
      Option.map_eq_some_iff, Option.pure_def, Option.some.injEq] at h
    obtain ⟨_, ⟨v, -, rfl⟩, rest, hrest, rfl⟩ := h
    simp [ih hrest]

theorem entries_congr (content : WireContent)
    (h : Set.EqOn c c' (content.reads engine models route id)) :
    content.entries engine models route id c = content.entries engine models route id c' := by
  cases content with
  | expressions es =>
    have he : ∀ e ∈ es, engine.evaluate e.value c = engine.evaluate e.value c' := fun e he =>
      engine.evaluate_congr _ _ _ fun k hk => h ⟨e, he, hk⟩
    clear h
    induction es with
    | nil => rfl
    | cons e es ih =>
      have ih := ih fun e' h' => he e' (List.mem_cons_of_mem _ h')
      simp only [entries] at ih
      simp only [entries, List.mapM_cons, he e List.mem_cons_self, ih]
  | decisionTable fields output rules =>
    rw [entries, entries, engine.decide_congr _ _ _ _ fun t ht k hk => h ⟨t, ht, hk⟩]
  | modelCall =>
    simp only [entries]
    cases hs : route id with
    | none => rfl
    | some s => exact s.callModel_congr fun k hk => h ⟨s, hs, hk⟩

theorem entries_writes (content : WireContent)
    (h : content.entries engine models route id c = some l) {k : String}
    (hk : k ∈ l.map Prod.fst) : k ∈ content.writes route id := by
  cases content with
  | expressions es =>
    rw [keys_expressions h] at hk
    obtain ⟨e, he, rfl⟩ := List.mem_map.mp hk
    exact ⟨e, he, rfl⟩
  | decisionTable fields output rules =>
    obtain ⟨v, -, rfl⟩ := Option.map_eq_some_iff.mp h
    obtain ⟨_, he, rfl⟩ := List.mem_map.mp hk
    obtain ⟨_, -, rfl⟩ := List.mem_map.mp he
    rfl
  | modelCall =>
    obtain ⟨s, hs, hc⟩ := Option.bind_eq_some_iff.mp h
    rcases s.keys_callModel hc with hl | hl
    · exact ⟨s, hs, Or.inl (hl ▸ hk)⟩
    · exact ⟨s, hs, by simpa [hl] using hk⟩

theorem entries_certain (content : WireContent)
    (h : content.entries engine models route id c = some l) {k : String}
    (hk : k ∈ content.certain route id) : k ∈ l.map Prod.fst := by
  cases content with
  | expressions es =>
    obtain ⟨e, he, rfl⟩ := hk
    rw [keys_expressions h]
    exact List.mem_map_of_mem he
  | decisionTable => cases hk
  | modelCall =>
    obtain ⟨s, hs, hp⟩ := hk
    obtain ⟨s', hs', hc⟩ := Option.bind_eq_some_iff.mp h
    obtain rfl : s = s' := Option.some.inj (hs.symm.trans hs')
    rcases s.keys_callModel hc with hl | hl
    · rwa [hl]
    · rw [hl]; exact List.mem_append_left _ hp

end WireContent

/-- A node of the chain over the engine's context. -/
def WireNode.toNode (n : WireNode) : Node String Value where
  reads := n.content.reads engine models route n.id
  writes := n.content.writes route n.id
  certain := n.content.certain route n.id
  emit c := (n.content.entries engine models route n.id c).map ofEntries
  reads_only c c' h := by rw [n.content.entries_congr h]
  writes_only c o h k hk := by
    obtain ⟨l, hl, rfl⟩ := Option.map_eq_some_iff.mp h
    exact ofEntries_eq_none.mpr fun hm => hk (n.content.entries_writes hl hm)
  writes_certain c o h k hk := by
    obtain ⟨l, hl, rfl⟩ := Option.map_eq_some_iff.mp h
    exact ofEntries_isSome_iff.mpr (n.content.entries_certain hl hk)

def evaluateChain (chain : List WireNode) (c : Context) : Option Context :=
  Node.run (chain.map (·.toNode engine models route)) c

def failingNode (chain : List WireNode) (c : Context) : Option String :=
  (Node.stuckAt (chain.map (·.toNode engine models route)) c).bind fun i =>
    chain[i]?.map WireNode.id

end GiPricing
