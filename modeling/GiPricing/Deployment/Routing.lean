import GiPricing.Deployment.Gated
import GiPricing.Failure.Lists
import GiPricing.Order.HalfOpen
import Mathlib

/-! # Date routing

An Environment's rule is written whole, and its latest row is in force. The writer refuses ranges
that overlap, so that the reader may take the first stored range that holds a date.
-/

namespace GiPricing.Deployment

open Failure HalfOpen

variable {Date : Type} [LinearOrder Date]

/-! ## The rule -/

structure RoutingRange (Date : Type) where
  rating_version_ref : ArtifactRef
  effective_from : Date
  effective_to : Option Date
  deriving DecidableEq

/-- A stored range, with the Deployment that was the latest of its version. -/
structure RoutedRange (Date : Type) extends RoutingRange Date where
  deployment_id : UUID
  deriving DecidableEq

def RoutingRange.span (r : RoutingRange Date) : Span Date := ⟨r.effective_from, r.effective_to⟩

def RoutingRange.dates (r : RoutingRange Date) : Set Date := r.span.members

structure RoutingRuleRow (Date : Type) where
  id : UUID
  workspace_id : UUID
  environment : String
  ranges : List (RoutedRange Date)
  written_by : UUID
  written_at : ℕ
  deriving DecidableEq

/-- The order of rules: `(written_at, id)`. -/
def RoutingRuleRow.stamp (row : RoutingRuleRow Date) : ℕ ×ₗ ℕ := toLex (row.written_at, row.id)

/-- `deployment.routing_changed`, with the rules before and after. -/
structure RoutingChanged (Date : Type) where
  workspace_id : UUID
  actor : UUID
  environment : String
  before : Option (RoutingRuleRow Date)
  after : RoutingRuleRow Date
  deriving DecidableEq

/-- The tables behind routing: rules are only appended. -/
structure Routing (Date : Type) where
  registry : Registry
  rules : List (RoutingRuleRow Date)
  audit : List (RoutingChanged Date)

inductive RoutingRefusal (Date : Type)
  | deploy (refusal : DeployRefusal)
  | onlyRatingVersions (ref : ArtifactRef)
  | endsBeforeStart (range : RoutingRange Date)
  | notDeployed (ref : ArtifactRef) (environment : String)
  | overlap (a b : RoutingRange Date)

/-! ## Writing a rule -/

/-- `_overlaps` -/
def overlaps (a b : RoutingRange Date) : Prop := a.span.Meets b.span

instance (a b : RoutingRange Date) : Decidable (overlaps a b) :=
  inferInstanceAs (Decidable (a.span.Meets b.span))

/-- `combinations(…, 2)` -/
def combinations {α : Type} : List α → List (α × α)
  | [] => []
  | a :: l => l.map (a, ·) ++ combinations l

/-- `_sort_key`, start first and then the text of the reference. -/
def sortedRanges (ranges : List (RoutingRange Date)) : List (RoutingRange Date) :=
  ranges.mergeSort fun a b => decide (toLex (a.effective_from, refText a.rating_version_ref) ≤
    toLex (b.effective_from, refText b.rating_version_ref))

/-- `_latest_deployments`, for one version. -/
def pin (s : Registry) (workspace_id : UUID) (environment : String) (ref : ArtifactRef) :
    Option UUID :=
  (Registry.lastOf (s.deployed workspace_id environment (refText ref))).map (·.id)

/-- The latest rule of an Environment. -/
def Routing.current (s : Routing Date) (workspace_id : UUID) (environment : String) :
    Option (RoutingRuleRow Date) :=
  let rows := s.rules.filter fun r => r.workspace_id = workspace_id ∧ r.environment = environment
  rows.find? fun r => rows.all fun q => q.stamp ≤ r.stamp

/-- What `write_rule` is called with; the row gets a new id and the time of the write. -/
structure WriteRule (Date : Type) where
  id : UUID
  written_at : ℕ
  workspace_id : UUID
  actor : Governance.Principal
  environment : String
  ranges : List (RoutingRange Date)

def routed (s : Registry) (c : WriteRule Date) (r : RoutingRange Date) :
    Except (RoutingRefusal Date) (RoutedRange Date) :=
  (require (pin s c.workspace_id c.environment r.rating_version_ref)
    (.notDeployed r.rating_version_ref c.environment)).map fun id => { r with deployment_id := id }

def writeRule (s : Routing Date) (c : WriteRule Date) :
    Except (RoutingRefusal Date) (Routing Date) := do
  let env ← (s.registry.authorisedEnvironment c.actor c.environment).mapError .deploy
  c.ranges.forM fun r => ensure (r.rating_version_ref.type = "rating_version")
    (.onlyRatingVersions r.rating_version_ref)
  c.ranges.forM fun r => ensure (∀ t ∈ r.effective_to, r.effective_from < t) (.endsBeforeStart r)
  let ranges ← c.ranges.mapM (routed s.registry c)
  (combinations (sortedRanges c.ranges)).forM fun p =>
    ensure (¬ overlaps p.1 p.2) (.overlap p.1 p.2)
  let previous := s.current c.workspace_id env.slug
  let row : RoutingRuleRow Date :=
    { id := c.id
      workspace_id := c.workspace_id
      environment := env.slug
      ranges := ranges
      written_by := c.actor.id
      written_at := c.written_at }
  return { s with
    rules := row :: s.rules
    audit := s.audit ++ [⟨c.workspace_id, c.actor.id, env.slug, previous, row⟩] }

/-! ## Reading a rule -/

/-- A stored range that holds the date and whose Deployment is one of this Environment. -/
def candidate (s : Registry) (workspace_id : UUID) (environment : String) (date : Date)
    (r : RoutedRange Date) : Option (ArtifactRef × UUID) :=
  if date < r.effective_from ∨ ∃ t ∈ r.effective_to, t ≤ date then none
  else if s.deployments.any fun d => d.id = r.deployment_id ∧ d.workspace_id = workspace_id ∧
      d.environment = environment ∧ d.rating_version_ref = refText r.rating_version_ref then
    some (r.rating_version_ref, r.deployment_id)
  else none

def selectFrom (s : Registry) (workspace_id : UUID) (environment : String) (date : Date)
    (ranges : List (RoutedRange Date)) : Option (ArtifactRef × UUID) :=
  ranges.findSome? (candidate s workspace_id environment date)

def selectRange (s : Routing Date) (workspace_id : UUID) (environment : String) (date : Date) :
    Option (ArtifactRef × UUID) :=
  (s.current workspace_id environment).bind fun rule =>
    selectFrom s.registry workspace_id environment date rule.ranges

/-! ## What is accepted -/

section Accepted

variable {s s' : Routing Date} {c : WriteRule Date} {ranges : List (RoutingRange Date)}

theorem forall_mem_combinations {α : Type} {R : α → α → Prop} {l : List α} :
    (∀ p ∈ combinations l, R p.1 p.2) ↔ l.Pairwise R := by
  induction l with
  | nil => simp [combinations]
  | cons a l ih =>
    rw [combinations, List.forall_mem_append, ih, List.pairwise_cons, List.forall_mem_map]

theorem combinations_sortedRanges (hne : ∀ r ∈ ranges, r.dates.Nonempty) :
    (∀ p ∈ combinations (sortedRanges ranges), ¬ overlaps p.1 p.2) ↔
      ranges.Pairwise fun a b => Disjoint a.dates b.dates := by
  have hsymm : ∀ {a b : RoutingRange Date}, Disjoint a.dates b.dates → Disjoint b.dates a.dates :=
    fun h => h.symm
  have hperm : (sortedRanges ranges).Perm ranges := List.mergeSort_perm _ _
  rw [@forall_mem_combinations _ (fun a b : RoutingRange Date => ¬ overlaps a b),
    ← hperm.pairwise_iff hsymm]
  apply List.Pairwise.iff_of_mem
  intro a b ha hb
  have ha := hne a (hperm.subset ha)
  have hb := hne b (hperm.subset hb)
  rw [overlaps, ← Span.not_disjoint_iff ha hb, not_not]
  rfl

theorem isSome_lastOf {rows : List DeploymentRow} :
    (Registry.lastOf rows).isSome = true ↔ rows ≠ [] := by
  rw [Registry.lastOf, List.find?_isSome]
  constructor
  · rintro ⟨r, hr, -⟩
    exact List.ne_nil_of_mem hr
  · intro hne
    cases hmax : rows.argmax DeploymentRow.stamp with
    | none => exact absurd (List.argmax_eq_none.mp hmax) hne
    | some r =>
      refine ⟨r, List.argmax_mem hmax, ?_⟩
      rw [List.all_eq_true]
      exact fun q hq => decide_eq_true (List.le_of_mem_argmax hq hmax)

omit [LinearOrder Date] in
theorem exists_routed {r : RoutingRange Date} : (∃ out, routed s.registry c r = .ok out) ↔
    s.registry.deployed c.workspace_id c.environment (refText r.rating_version_ref) ≠ [] := by
  rw [← isSome_lastOf, routed, pin]
  cases Registry.lastOf _ with
  | none => simp [require, Except.map]
  | some d => simp [require, Except.map]

omit [LinearOrder Date] in
theorem routed_range {r : RoutingRange Date} {out : RoutedRange Date}
    (h : routed s.registry c r = .ok out) : out.toRoutingRange = r := by
  obtain ⟨id, -, rfl⟩ := map_eq_ok.mp h
  rfl

theorem writeRule_eq_ok : writeRule s c = .ok s' ↔ ∃ env ranges,
    s.registry.authorisedEnvironment c.actor c.environment = .ok env ∧
    (∀ r ∈ c.ranges, r.rating_version_ref.type = "rating_version") ∧
    (∀ r ∈ c.ranges, r.dates.Nonempty) ∧ c.ranges.mapM (routed s.registry c) = .ok ranges ∧
    (c.ranges.Pairwise fun a b => Disjoint a.dates b.dates) ∧
    s' = { s with
      rules := ⟨c.id, c.workspace_id, env.slug, ranges, c.actor.id, c.written_at⟩ :: s.rules
      audit := s.audit ++ [⟨c.workspace_id, c.actor.id, env.slug, s.current c.workspace_id env.slug,
        ⟨c.id, c.workspace_id, env.slug, ranges, c.actor.id, c.written_at⟩⟩] } := by
  have hdates : ∀ r : RoutingRange Date,
      (∀ t ∈ r.effective_to, r.effective_from < t) ↔ r.dates.Nonempty :=
    fun r => (@Span.nonempty_members _ _ r.span).symm
  simp only [writeRule, bind_eq_ok, mapError_eq_ok, forM_eq_ok, ensure_eq_ok, exists_const,
    pure_eq_ok, hdates]
  constructor
  · rintro ⟨env, henv, htype, hne, ranges, hranges, hover, rfl⟩
    exact ⟨env, ranges, henv, htype, hne, hranges, (combinations_sortedRanges hne).mp hover, rfl⟩
  · rintro ⟨env, ranges, henv, htype, hne, hranges, hdisjoint, rfl⟩
    have hover := (combinations_sortedRanges hne).mpr hdisjoint
    exact ⟨env, henv, htype, hne, ranges, hranges, hover, rfl⟩

theorem writeRule_accepts : (∃ s', writeRule s c = .ok s') ↔
    (∃ env, s.registry.authorisedEnvironment c.actor c.environment = .ok env) ∧
    (∀ r ∈ c.ranges, r.rating_version_ref.type = "rating_version" ∧
      s.registry.deployed c.workspace_id c.environment (refText r.rating_version_ref) ≠ []) ∧
    (∀ r ∈ c.ranges, r.dates.Nonempty) ∧
      c.ranges.Pairwise fun a b => Disjoint a.dates b.dates := by
  have hrouted : (∃ ranges, c.ranges.mapM (routed s.registry c) = .ok ranges) ↔ ∀ r ∈ c.ranges,
      s.registry.deployed c.workspace_id c.environment (refText r.rating_version_ref) ≠ [] := by
    rw [exists_mapM_ok_iff]
    simp only [exists_routed]
  constructor
  · rintro ⟨s', h⟩
    obtain ⟨env, ranges, henv, htype, hne, hranges, hdisjoint, -⟩ := writeRule_eq_ok.mp h
    have hall := hrouted.mp ⟨ranges, hranges⟩
    exact ⟨⟨env, henv⟩, fun r hr => ⟨htype r hr, hall r hr⟩, hne, hdisjoint⟩
  · rintro ⟨⟨env, henv⟩, hrefs, hne, hdisjoint⟩
    obtain ⟨ranges, hranges⟩ := hrouted.mpr fun r hr => (hrefs r hr).2
    exact ⟨_, writeRule_eq_ok.mpr ⟨env, ranges, henv, fun r hr => (hrefs r hr).1, hne, hranges,
      hdisjoint, rfl⟩⟩

end Accepted

/-! ## Runs -/

/-- A write, or any change of the tables behind deploys. -/
inductive RoutingEvent (Date : Type)
  | write (call : WriteRule Date)
  | deploys (registry : Registry)

def routingStep (s : Routing Date) : RoutingEvent Date → Option (Routing Date)
  | .write call => (writeRule s call).toOption
  | .deploys registry => some { s with registry := registry }

/-- The ranges of every stored rule share no date. -/
def Apart (s : Routing Date) : Prop :=
  ∀ row ∈ s.rules, row.ranges.Pairwise fun a b => Disjoint a.dates b.dates

theorem apart_step {s s' : Routing Date} {e : RoutingEvent Date} (hs : Apart s)
    (h : routingStep s e = some s') : Apart s' := by
  cases e with
  | deploys registry =>
    obtain rfl := Option.some.inj h
    exact hs
  | write call =>
    have hok : writeRule s call = .ok s' := by
      rw [routingStep] at h
      cases hw : writeRule s call with
      | error e => rw [hw] at h; cases h
      | ok t => rw [hw] at h; cases h; rfl
    obtain ⟨env, ranges, -, -, -, hranges, hdisjoint, rfl⟩ := writeRule_eq_ok.mp hok
    intro row hrow
    rcases List.mem_cons.mp hrow with rfl | hrow
    · have hsame : ranges.map (·.toRoutingRange) = call.ranges := by
        rw [← List.forall₂_eq_eq_eq, List.forall₂_map_left_iff]
        exact (mapM_eq_ok.mp hranges).flip.imp fun _ _ hr => routed_range hr
      rw [← hsame, List.pairwise_map] at hdisjoint
      exact hdisjoint
    · exact hs row hrow

theorem Apart.current {s : Routing Date} (hs : Apart s) {workspace_id : UUID} {environment : String}
    {rule : RoutingRuleRow Date} (h : s.current workspace_id environment = some rule) :
    rule.ranges.Pairwise fun a b => Disjoint a.dates b.dates :=
  hs rule (List.mem_filter.mp (List.mem_of_find?_eq_some h)).1

theorem isSome_candidate {s : Registry} {workspace_id : UUID} {environment : String} {date : Date}
    {r : RoutedRange Date} (h : (candidate s workspace_id environment date r).isSome = true) :
    date ∈ r.dates := by
  unfold candidate at h
  split at h
  · cases h
  · rename_i hdate
    rw [not_or] at hdate
    refine ⟨not_lt.mp hdate.1, fun t ht => ?_⟩
    by_contra hle
    exact hdate.2 ⟨t, ht, not_lt.mp hle⟩

/-- In every run from an empty table, at most one range of the rule in force holds a date, and the
version that is selected is the same for every order of the stored ranges. A rule is accepted
exactly where the caller may write it, its versions are deployed in the Environment, and its ranges
hold dates and share none. -/
theorem routing_unambiguous (Date : Type) [LinearOrder Date] :
    (∀ registry es (s : Routing Date), Transition.run routingStep ⟨registry, [], []⟩ es = some s →
      ∀ workspace_id environment rule, s.current workspace_id environment = some rule →
        ∀ date, (rule.ranges.Pairwise fun a b => ¬ (date ∈ a.dates ∧ date ∈ b.dates)) ∧
          ∀ ranges, ranges.Perm rule.ranges → selectFrom s.registry workspace_id environment date
            ranges = selectRange s workspace_id environment date) ∧
    ∀ (s : Routing Date) c, (∃ s', writeRule s c = .ok s') ↔
      (∃ env, s.registry.authorisedEnvironment c.actor c.environment = .ok env) ∧
      (∀ r ∈ c.ranges, r.rating_version_ref.type = "rating_version" ∧
        s.registry.deployed c.workspace_id c.environment (refText r.rating_version_ref) ≠ []) ∧
      (∀ r ∈ c.ranges, r.dates.Nonempty) ∧
        c.ranges.Pairwise fun a b => Disjoint a.dates b.dates := by
  refine ⟨?_, fun s c => writeRule_accepts⟩
  intro registry es s hrun workspace_id environment rule hrule date
  have hs : Apart s := Transition.run_preserves (fun _ _ _ hs h => apart_step hs h)
    (fun row hrow => absurd hrow List.not_mem_nil) hrun
  have hone : rule.ranges.Pairwise fun a b => ¬ (date ∈ a.dates ∧ date ∈ b.dates) :=
    (hs.current hrule).imp fun {a b} h (hboth : date ∈ a.dates ∧ date ∈ b.dates) =>
      Set.disjoint_left.mp h hboth.1 hboth.2
  refine ⟨hone, ?_⟩
  intro ranges hperm
  rw [selectRange, hrule, Option.bind_some]
  refine (findSome?_perm hperm.symm (hone.imp ?_)).symm
  exact fun h hboth => h ⟨isSome_candidate hboth.1, isSome_candidate hboth.2⟩

section Example

def motorVersion : ArtifactRef := ⟨"rating_version", "motor", 1⟩

def routingPromoter : Governance.Principal := ⟨1, [.deploymentPromote], []⟩

/-- One Environment, and the versions deployed there. -/
def production (deployments : List DeploymentRow) : Registry :=
  { Registry.init fun _ => ⟨[]⟩ with
    environments := [⟨"prod", none, false⟩]
    deployments := deployments }

def motorDeployment : DeploymentRow := ⟨7, 1, "prod", refText motorVersion, "hash", 1, none⟩

def writeRanges (ranges : List (RoutingRange ℕ)) : WriteRule ℕ :=
  ⟨9, 2, 1, routingPromoter, "prod", ranges⟩

theorem production_authorised (deployments : List DeploymentRow) :
    (production deployments).authorisedEnvironment routingPromoter "prod" =
      .ok ⟨"prod", none, false⟩ := rfl

def splitRanges : List (RoutingRange ℕ) := [⟨motorVersion, 0, some 5⟩, ⟨motorVersion, 5, none⟩]

theorem splitRanges_routed :
    ∃ s, Transition.run routingStep ⟨production [motorDeployment], [], []⟩
        [.write (writeRanges splitRanges)] = some s ∧
      ∀ rule, s.current 1 "prod" = some rule → ∀ date,
        rule.ranges.Pairwise fun a b => ¬ (date ∈ a.dates ∧ date ∈ b.dates) := by
  have hrefs : ∀ r ∈ splitRanges, r.rating_version_ref.type = "rating_version" ∧
      (production [motorDeployment]).deployed 1 "prod" (refText r.rating_version_ref) ≠ [] := by
    decide
  have hne : ∀ r ∈ splitRanges, r.dates.Nonempty := by
    intro r hr
    apply Span.nonempty_members.mpr
    revert r
    decide
  have hdisjoint : splitRanges.Pairwise fun a b => Disjoint a.dates b.dates := by
    apply List.pairwise_pair.mpr
    rw [Set.disjoint_left]
    intro date h h'
    exact absurd (h.2 5 rfl) (not_lt.mpr h'.1)
  obtain ⟨s, hs⟩ := ((routing_unambiguous ℕ).2 ⟨production [motorDeployment], [], []⟩
    (writeRanges splitRanges)).mpr ⟨⟨_, production_authorised _⟩, hrefs, hne, hdisjoint⟩
  have hrun : Transition.run routingStep ⟨production [motorDeployment], [], []⟩
      [.write (writeRanges splitRanges)] = some s := by
    rw [Transition.run, routingStep, hs]
    rfl
  refine ⟨s, hrun, fun rule hrule date => ?_⟩
  exact ((routing_unambiguous ℕ).1 _ _ s hrun 1 "prod" rule hrule date).1

/-- One open range of a version that was never deployed is refused. -/
theorem undeployed_refused :
    ¬ ∀ (s : Routing ℕ) c, (∃ s', writeRule s c = .ok s') ↔
      (∀ r ∈ c.ranges, r.dates.Nonempty) ∧
        c.ranges.Pairwise fun a b => Disjoint a.dates b.dates := by
  intro h
  obtain ⟨s', hs'⟩ := (h ⟨production [], [], []⟩ (writeRanges [⟨motorVersion, 0, none⟩])).mpr
    ⟨by simp [writeRanges, RoutingRange.dates, RoutingRange.span, Span.nonempty_members],
      List.pairwise_singleton _ _⟩
  obtain ⟨-, hrefs, -⟩ := writeRule_accepts.mp ⟨s', hs'⟩
  exact (hrefs ⟨motorVersion, 0, none⟩ (by simp [writeRanges])).2 rfl

end Example

end GiPricing.Deployment
