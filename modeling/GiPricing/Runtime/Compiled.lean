import GiPricing.Runtime.Order

/-! # Compiling and evaluating

An algorithm is inlined for a purpose, translated to its chain and evaluated on a quote's
context, and the checks of the result may refuse it. Listing the steps in another order
changes neither the context nor whether the quote is refused.
-/

namespace GiPricing

open Dataflow

inductive PricingFailure
  | inlining (refusal : InlineRefusal)
  | translation (failure : WireFailure)
  | raised (raised : Raised)
  deriving DecidableEq

section Pricing

variable (engine : Engine) (models : Models) (payloads : Payloads)
  (fragments : ArtifactRef → Option SubGraph) (purpose : Option MountPurpose)

/-- The checked engine result of a quote's context. -/
def priceContext (algorithm : RatingAlgorithm) (c : Context) : Except PricingFailure Context := do
  let inlined ← (inlineMounts algorithm fragments purpose).mapError .inlining
  let ev ← (loadEvaluation engine payloads inlined).mapError .translation
  let result ← (ev.evaluate engine models c).mapError .raised
  (checkResult inlined.toRatingAlgorithmDraft result).mapError .raised
  return result

end Pricing

variable {engine : Engine} {models : Models} {payloads : Payloads}
  {fragments : ArtifactRef → Option SubGraph} {purpose : Option MountPurpose}

/-! ## The closing node -/

section Report

variable {steps steps' : List RatingStep} {names names' : List String}
  {route : String → Option RatingStep}

theorem nodup_eraseDups (l : List String) : l.eraseDups.Nodup := by
  induction hn : l.length using Nat.strong_induction_on generalizing l with
  | _ n ih =>
    cases l with
    | nil => simp
    | cons a l =>
      rw [List.eraseDups_cons]
      have hlt : (l.filter fun b => !b == a).length < n := by
        have := List.length_filter_le (fun b => !b == a) l
        rw [List.length_cons] at hn
        omega
      exact List.nodup_cons.mpr ⟨by simp [List.mem_eraseDups], ih _ hlt _ rfl⟩

theorem nodup_exactReadNames (steps : List RatingStep) : (exactReadNames steps).Nodup :=
  nodup_eraseDups _

theorem exactReadNames_perm (hp : steps'.Perm steps) :
    (exactReadNames steps').Perm (exactReadNames steps) := by
  refine (List.perm_ext_iff_of_nodup (nodup_exactReadNames _) (nodup_exactReadNames _)).mpr ?_
  intro name
  rw [exactReadNames, exactReadNames, List.mem_eraseDups, List.mem_eraseDups]
  exact ((hp.filter _).filterMap _).mem_iff

theorem exactKey_injective : Function.Injective exactKey := by
  intro a b h
  apply String.toList_inj.mp
  have h := congrArg String.toList h
  simpa [exactKey] using h

theorem step_exactReadNode (hn : names.Nodup) (hp : names'.Perm names) (c : Context) :
    (((exactReadNode names').toNode engine models route).strict modelCallErrorKey).step c =
      (((exactReadNode names).toNode engine models route).strict modelCallErrorKey).step c := by
  have hkeys : ∀ {l : List (String × Value)} {ns : List String}, ns.Nodup →
      (exactReadNode ns).content.entries engine models route "__exact_reads" c = some l →
      (l.map Prod.fst).Nodup := by
    intro l ns hns hl
    rw [WireContent.keys_expressions hl, List.map_map]
    exact hns.map exactKey_injective
  have hemit : (((exactReadNode names').toNode engine models route).emit c) =
      ((exactReadNode names).toNode engine models route).emit c := by
    have hmap := Failure.mapM_perm
      (f := fun e : WireExpression => (engine.evaluate e.value c).map (e.key, ·))
      (hp.map fun name => ⟨exactKey name, RatingStep.exactText name⟩)
    rcases hmap with ⟨h', h⟩ | ⟨r', r, h', h, hr⟩
    · exact (congrArg (Option.map ofEntries) h').trans (congrArg (Option.map ofEntries) h).symm
    · refine (congrArg (Option.map ofEntries) h').trans
        (Eq.trans ?_ (congrArg (Option.map ofEntries) h).symm)
      exact congrArg some (ofEntries_perm (hkeys (hp.nodup_iff.mpr hn) h') hr)
  simp only [Node.step, Node.strict, hemit]

theorem run_reportNodes (hp : steps'.Perm steps) (c : Context) :
    Node.run ((reportNodes steps').map fun n =>
        (n.toNode engine models route).strict modelCallErrorKey) c =
      Node.run ((reportNodes steps).map fun n =>
        (n.toNode engine models route).strict modelCallErrorKey) c := by
  have hnames := exactReadNames_perm hp
  unfold reportNodes
  by_cases h : exactReadNames steps = []
  · have h' : exactReadNames steps' = [] := List.perm_nil.mp (h ▸ hnames)
    simp [h, h']
  · have h' : exactReadNames steps' ≠ [] := fun he => h (List.nil_perm.mp (he ▸ hnames))
    simp only [h, h', if_false, List.map_cons, List.map_nil, Node.run_cons]
    rw [step_exactReadNode (nodup_exactReadNames steps) hnames]

end Report

/-! ## The checks of the result -/

section Checks

variable {steps steps' : List RatingStep} {draft draft' : RatingAlgorithmDraft} {result : Context}

theorem refuseFirst_eq_ok {refusal : RatingStep → Option Refusal} :
    refuseFirst steps refusal = .ok () ↔ ∀ s ∈ steps, refusal s = none := by
  unfold refuseFirst
  split
  · rename_i r h
    simp only [reduceCtorEq, false_iff, not_forall]
    obtain ⟨s, hs, hr⟩ := List.exists_of_findSome?_eq_some h
    exact ⟨s, hs, by simp [hr]⟩
  · rename_i h
    exact iff_of_true rfl (List.findSome?_eq_none_iff.mp h)

theorem checkResult_eq_ok :
    checkResult draft result = .ok () ↔ result modelCallErrorKey = none ∧
      ∀ s ∈ draft.steps, s.unparseable result = none ∧ s.missed result = none := by
  have hsentinel : checkModelCallSentinel result = .ok () ↔ result modelCallErrorKey = none := by
    unfold checkModelCallSentinel
    split
    · rename_i detail h
      simp [h]
    · rename_i h
      simp [h]
  simp only [checkResult, Failure.bind_eq_ok, hsentinel, checkUnparseableCells, checkLookupMisses,
    refuseFirst_eq_ok, exists_const, forall_and]
  constructor
  · rintro ⟨h, ⟨⟩, hu, hm⟩
    exact ⟨h, refuseFirst_eq_ok.mp hu, hm⟩
  · rintro ⟨h, hu, hm⟩
    exact ⟨h, (), refuseFirst_eq_ok.mpr hu, hm⟩

theorem checkResult_perm (hp : draft'.steps.Perm draft.steps) :
    checkResult draft' result = .ok () ↔ checkResult draft result = .ok () := by
  simp only [checkResult_eq_ok, hp.mem_iff]

end Checks

/-! ## Another order of the steps -/

section Reordered

variable {a out : RatingAlgorithm} {steps steps' : List RatingStep} {c r : Context}

theorem mapError_eq_ok {ε ε' α : Type} {x : Except ε α} {f : ε → ε'} {v : α} :
    x.mapError f = .ok v ↔ x = .ok v := by
  cases x <;> simp [Except.mapError]

theorem sound_of_inlined (h : out.subGraphs = []) :
    Graph.Sound (out.steps.map RatingStep.node) := by
  have hs := ((graphInvariantIssues_eq_nil.mp out.graph_ok).pass none).sound
  simpa [RatingAlgorithmDraft.nodesWith, RatingAlgorithmDraft.mountsFor, h] using hs

theorem toWire_perm {guards : RatingStep → Option (List String × Bool)} {wire : List WireNode}
    (h : Graph.Sound (steps.map RatingStep.node)) (hp : steps'.Perm steps)
    (hw : toWire engine payloads guards steps = .ok wire) :
    ∃ order', dependencyOrder (steps'.filter RatingStep.isInterior) = .ok order' ∧
      toWire engine payloads guards steps' =
        .ok (order'.flatMap (·.wireNodes engine payloads guards) ++ reportNodes steps') := by
  obtain ⟨order, ho, hall, rfl⟩ := toWire_eq_ok.mp hw
  have hs' : Graph.Sound (steps'.map RatingStep.node) := h.perm (hp.map _).symm
  have ho' := dependencyOrder_eq_ok.mpr ⟨acyclic_interior hs', rfl⟩
  refine ⟨_, ho', toWire_eq_ok.mpr ⟨_, ho', fun s hs => hall s ?_, rfl⟩⟩
  exact (dependencyOrder_perm ho).mem_iff.mpr
    ((hp.filter _).mem_iff.mp ((dependencyOrder_perm ho').mem_iff.mp hs))

theorem strict_chain (order : List RatingStep) (route : String → Option RatingStep) :
    ((order.flatMap (·.wireNodes engine payloads fun _ => none) ++ reportNodes steps).map
        (WireNode.toNode engine models route)).map (·.strict modelCallErrorKey) =
      order.map (stepNode engine models payloads route) ++
        (reportNodes steps).map fun n => (n.toNode engine models route).strict modelCallErrorKey := by
  simp only [wireNodes_plain, ← List.map_eq_flatMap, List.map_append, List.map_map]
  rfl

theorem evaluateChain_perm (h : Graph.Sound (steps.map RatingStep.node))
    (d : Disciplined engine models payloads steps) (hp : steps'.Perm steps)
    {order order' : List RatingStep}
    (ho : dependencyOrder (steps.filter RatingStep.isInterior) = .ok order)
    (ho' : dependencyOrder (steps'.filter RatingStep.isInterior) = .ok order')
    (hrun : evaluateChain engine models (routed steps)
      (order.flatMap (·.wireNodes engine payloads fun _ => none) ++ reportNodes steps) c = some r)
    (hr : r modelCallErrorKey = none) :
    evaluateChain engine models (routed steps')
      (order'.flatMap (·.wireNodes engine payloads fun _ => none) ++ reportNodes steps') c =
        some r := by
  have hc : c modelCallErrorKey = none := by
    by_contra hc
    have := Node.run_isSome hrun (Option.isSome_iff_ne_none.mpr hc)
    simp [hr] at this
  rw [routed_perm (nodup_stepIds h) hp]
  have hstrict : ∀ l : List (Node String Value), (Node.run l c).filter
      (fun r => (r modelCallErrorKey).isNone) = some r → Node.run l c = some r :=
    fun l hl => (Option.filter_eq_some_iff.mp hl).1
  apply hstrict
  rw [← Node.run_strict _ _ hc, strict_chain, Node.run_append, ← run_stepNodes h d hp ho ho' c]
  have hbind : ∀ x : Option Context, (x.bind fun c' => Node.run ((reportNodes steps').map fun n =>
      (n.toNode engine models (routed steps)).strict modelCallErrorKey) c') =
      x.bind fun c' => Node.run ((reportNodes steps).map fun n =>
        (n.toNode engine models (routed steps)).strict modelCallErrorKey) c' :=
    fun x => congrArg _ (funext fun c' => run_reportNodes hp c')
  rw [hbind, ← Node.run_append, ← strict_chain, Node.run_strict _ _ hc]
  exact Option.filter_eq_some_iff.mpr ⟨hrun, by simp [hr]⟩

theorem Disciplined.perm (hn : (steps.map RatingStep.stepId).Nodup)
    (d : Disciplined engine models payloads steps) (hp : steps'.Perm steps) :
    Disciplined engine models payloads steps' where
  reads s hs := routed_perm hn hp ▸ d.reads s (hp.mem_iff.mp hs)
  generated s hs k hk t ht := d.generated s (hp.mem_iff.mp hs) k hk t (hp.mem_iff.mp ht)
  stamped t ht := d.stamped t (hp.mem_iff.mp ht)
  answered t ht := d.answered t (hp.mem_iff.mp ht)

theorem priceContext_eq_ok :
    priceContext engine models payloads fragments purpose a c = .ok r ↔
      ∃ out chain, inlineMounts a fragments purpose = .ok out ∧
        toWire engine payloads (fun _ => none) out.steps = .ok chain ∧
        (∃ guarded, toWire engine payloads RatingStep.guard? out.steps = .ok guarded) ∧
        evaluateChain engine models (routed out.steps) chain c = some r ∧
        checkResult out.toRatingAlgorithmDraft r = .ok () := by
  simp only [priceContext, Failure.bind_eq_ok, mapError_eq_ok, Failure.pure_eq_ok, loadEvaluation]
  constructor
  · rintro ⟨out, ho, ev, ⟨chain, hw, guarded, hg, rfl⟩, result, he, ⟨⟩, hcheck, rfl⟩
    refine ⟨out, chain, ho, hw, ⟨guarded, hg⟩, ?_, hcheck⟩
    unfold PurposeEvaluation.evaluate at he
    split at he
    · rename_i result' hr
      rw [← Except.ok.inj he]; exact hr
    · cases he
  · rintro ⟨out, chain, ho, hw, ⟨guarded, hg⟩, hrun, hcheck⟩
    refine ⟨out, ho, ⟨out, chain, guarded⟩, ⟨chain, hw, guarded, hg, rfl⟩, r, ?_, (), hcheck, rfl⟩
    simp [PurposeEvaluation.evaluate, hrun]

theorem priceContext_of_perm (hp : steps.Perm a.steps)
    (hd : ∀ out, inlineMounts a fragments purpose = .ok out →
      Disciplined engine models payloads out.steps)
    (h : priceContext engine models payloads fragments purpose a c = .ok r) :
    priceContext engine models payloads fragments purpose (a.reordered steps hp) c = .ok r := by
  obtain ⟨out, chain, ho, hw, ⟨guarded, hg⟩, hrun, hcheck⟩ := priceContext_eq_ok.mp h
  obtain ⟨steps', hp', ho'⟩ := inlineMounts_reordered hp ho
  have hs := sound_of_inlined (subGraphs_inlineMounts ho)
  obtain ⟨order, hord, -, rfl⟩ := toWire_eq_ok.mp hw
  obtain ⟨order', hord', hw'⟩ := toWire_perm hs hp' hw
  obtain ⟨_, -, hg'⟩ := toWire_perm hs hp' hg
  have hr := (checkResult_eq_ok.mp hcheck).1
  exact priceContext_eq_ok.mpr ⟨_, _, ho', hw', ⟨_, hg'⟩,
    evaluateChain_perm hs (hd out ho) hp' hord hord' hrun hr, (checkResult_perm hp').mpr hcheck⟩

/-- Listing the steps in another order gives the same context, or the quote is refused in both
orders. -/
theorem step_order_irrelevant (a : RatingAlgorithm) (steps : List RatingStep)
    (hp : steps.Perm a.steps)
    (hd : ∀ out, inlineMounts a fragments purpose = .ok out →
      Disciplined engine models payloads out.steps) (c : Context) :
    (priceContext engine models payloads fragments purpose (a.reordered steps hp) c).toOption =
      (priceContext engine models payloads fragments purpose a c).toOption := by
  have hd' : ∀ out, inlineMounts (a.reordered steps hp) fragments purpose = .ok out →
      Disciplined engine models payloads out.steps := by
    intro out ho
    obtain ⟨steps', hp', ho'⟩ := inlineMounts_reordered hp.symm ho
    have d := hd _ ho'
    exact d.perm (nodup_stepIds (sound_of_inlined (subGraphs_inlineMounts ho'))) hp'.symm
  cases h : priceContext engine models payloads fragments purpose a c with
  | ok r => rw [priceContext_of_perm hp hd h]
  | error e =>
    cases h' : priceContext engine models payloads fragments purpose (a.reordered steps hp) c with
    | error e' => rfl
    | ok r =>
      have hback := priceContext_of_perm hp.symm hd' h'
      exact absurd (h.symm.trans hback) (by simp)

end Reordered

section Example

/-- The name a plain text reads: the text itself, an exact read `string(name)` or a flag
`!(name)`. -/
def plainName (text : String) : String :=
  match (afterPrefix "string(" text).or (afterPrefix "!(" text) with
  | some rest => String.ofList rest.toList.dropLast
  | none => text

def plainValue (text : String) (v : Value) : Option Value :=
  if (afterPrefix "string(" text).isSome then some (.text v.str)
  else if (afterPrefix "!(" text).isSome then match v with
    | .bool b => some (.bool !b)
    | _ => none
  else some v

/-- The engine on plain texts and on tables of which no row matches. -/
def plainEngine : Engine where
  binds v := match v with | .decimal _ => false | _ => true
  evaluate text c := (c (plainName text)).bind (plainValue text)
  decide _ _ _ := some none
  reads text := {plainName text}
  evaluate_congr text c c' h := by rw [h rfl]
  decide_congr _ _ _ _ _ := rfl

def noModels : Models := ⟨fun _ => [], fun _ => [], fun _ _ _ => .raised⟩

def emptyTables : Payloads :=
  ⟨fun _ => some ⟨[⟨"age", .int⟩], { name := "rate" }, [], none⟩, fun _ => some []⟩

def tableStep (onMiss : OnMiss) : RatingStep :=
  { stepId := "t", consumes := ["age"], produces := ["rate"],
    kind := .table ⟨"rate_table", "age", 1⟩ ["age"] onMiss .none }

def lookupStep (onMiss : OnMiss) : RatingStep :=
  { stepId := "l", consumes := ["age"], produces := ["zone"],
    kind := .lookup ⟨"reference_table", "zones", 1⟩ ["age"] stampedDate onMiss }

def ageStep : RatingStep :=
  { stepId := "in", consumes := [], produces := ["age"], kind := .input "age" .error }

def priceStep (source : String) : RatingStep :=
  { stepId := "e", consumes := [source], produces := ["price"],
    kind := .expression source "money_minor" }

def payableStep : RatingStep :=
  { stepId := "out", consumes := ["price"], produces := [],
    kind := .output "payable_premium_minor" ⟨.halfEven, 0⟩ }

/-- A price beside a table and a lookup whose values nothing consumes. -/
def sideTables (onMiss : OnMiss) : RatingAlgorithm where
  slug := "motor"
  version := 1
  inputContract := [{ name := "age", type := .int }]
  outputs := [{ name := "payable_premium_minor", type := "money_minor" }]
  steps := [ageStep, tableStep onMiss, lookupStep onMiss, priceStep "age", payableStep]
  subGraphs := []
  graph_ok := by cases onMiss <;> decide

def lookupFirst (onMiss : OnMiss) : List RatingStep :=
  [ageStep, lookupStep onMiss, tableStep onMiss, priceStep "age", payableStep]

theorem lookupFirst_perm (onMiss : OnMiss) :
    (lookupFirst onMiss).Perm (sideTables onMiss).steps :=
  (List.Perm.swap _ _ _).cons _

def quoteOfThirty : Context := fun key =>
  [("effective_date", .text "2024-01-01"), ("purpose", .text "new_business"),
    ("age", .int 30)].lookup key

theorem plainName_age : plainName "age" ∈ ["age"] := by decide

theorem sideTables_disciplined (onMiss : OnMiss) :
    Disciplined plainEngine noModels emptyTables (sideTables onMiss).steps where
  reads := by
    intro s hs hi k hk
    fin_cases hs
    · cases hi
    · obtain ⟨t, ht, rfl⟩ := hk
      fin_cases ht
      exact Or.inl plainName_age
    · obtain ⟨t, ht, rfl⟩ := hk
      fin_cases ht
      · exact Or.inl plainName_age
      · exact Or.inr (by decide)
    · obtain ⟨e, he, rfl⟩ := hk
      fin_cases he
      exact Or.inl plainName_age
    · cases hi
  generated := by
    intro s hs k hk
    fin_cases hs <;> cases hk
  stamped := by cases onMiss <;> decide
  answered := by cases onMiss <;> decide

theorem sideTables_reordered :
    (priceContext plainEngine noModels emptyTables (fun _ => none) none
        ((sideTables .default).reordered _ (lookupFirst_perm .default)) quoteOfThirty).toOption =
      (priceContext plainEngine noModels emptyTables (fun _ => none) none (sideTables .default)
        quoteOfThirty).toOption :=
  step_order_irrelevant (sideTables .default) _ (lookupFirst_perm .default)
    (fun _ h => Except.ok.inj h ▸ sideTables_disciplined .default) quoteOfThirty

def memberStep : RatingStep :=
  { stepId := "member_in", consumes := [], produces := ["member"], kind := .input "member" .error }

def membersOnly : RatingStep :=
  { stepId := "cap", consumes := ["member"], produces := [],
    kind := .constraint "member" .decline none "NOT_A_MEMBER" }

def flagStep : RatingStep :=
  { stepId := "f", consumes := ["age"], produces := ["cap__violated"],
    kind := .expression "age" "money_minor" }

/-- The price reads a name that a step produces and a constraint writes. -/
def flagReader : RatingAlgorithm where
  slug := "motor"
  version := 1
  inputContract := [{ name := "age", type := .int }, { name := "member", type := .bool }]
  outputs := [{ name := "payable_premium_minor", type := "money_minor" }]
  steps := [ageStep, memberStep, membersOnly, flagStep, priceStep "cap__violated", payableStep]
  subGraphs := []
  graph_ok := by decide

def flagFirst : List RatingStep :=
  [ageStep, memberStep, flagStep, membersOnly, priceStep "cap__violated", payableStep]

theorem flagFirst_perm : flagFirst.Perm flagReader.steps :=
  ((List.Perm.swap _ _ _).cons _).cons _

def quoteOfMember : Context := fun key =>
  [("effective_date", .text "2024-01-01"), ("purpose", .text "new_business"),
    ("age", .int 30), ("member", .bool true)].lookup key

/-- Two missing rows are refused as the one listed first, and a name that two nodes write in
either order has either value. -/
theorem step_order_matters :
    (Failure.error? (priceContext plainEngine noModels emptyTables (fun _ => none) none
        (sideTables .error) quoteOfThirty) = some (.raised (.coded (.tableMiss "t"))) ∧
      Failure.error? (priceContext plainEngine noModels emptyTables (fun _ => none) none
        ((sideTables .error).reordered _ (lookupFirst_perm .error)) quoteOfThirty) =
        some (.raised (.coded (.lookupMiss "l")))) ∧
    (priceContext plainEngine noModels emptyTables (fun _ => none) none flagReader
        quoteOfMember).toOption.map (· "price") = some (some (.int 30)) ∧
      (priceContext plainEngine noModels emptyTables (fun _ => none) none
        (flagReader.reordered _ flagFirst_perm) quoteOfMember).toOption.map (· "price") =
        some (some (.bool false)) := by
  refine ⟨⟨?_, ?_⟩, ?_, ?_⟩ <;> decide

end Example

end GiPricing
