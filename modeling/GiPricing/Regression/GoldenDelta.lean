import GiPricing.Attribution.Covers
import GiPricing.Governance.Approvals
import GiPricing.Regression.Replay

/-! # The golden-quote delta

The golden quotes that changed since the suite the last approved version was checked with: the net
change of each and every suite version that touched it, with its author.
-/

namespace GiPricing.GoldenDelta

open Attribution Failure Merge

abbrev UUID := Governance.UUID

/-! ## Suites -/

structure GoldenQuoteExpected where
  payablePremiumMinor : Option ℤ
  outcome : ScoringOutcome
  deriving DecidableEq

structure SuiteQuote (κ : Type) where
  name : String
  context : κ
  expected : GoldenQuoteExpected
  toleranceMinor : ℤ
  note : Option String

/-- A version of a suite; its content is refused where two quotes share a name. -/
structure SuiteVersion (κ : Type) where
  version : ℕ
  goldenQuotes : List (SuiteQuote κ)
  names_nodup : (goldenQuotes.map fun q => q.name).Nodup

/-- The versions of a suite, ascending. A new one is numbered one above the highest. -/
structure SuiteHistory (κ : Type) where
  versions : List (SuiteVersion κ)
  numbered : versions.map SuiteVersion.version = List.range' 1 versions.length

/-- What the delta calls of others: the canonical JSON of a context and the digest. -/
structure Host (κ : Type) where
  canonicalJson : κ → String
  sha256 : String → String

inductive StepField | added | removed | expected | tolerance | context
  deriving DecidableEq

structure GoldenQuoteChangeStep where
  version : ℕ
  changedFields : List StepField
  author : UUID
  deriving DecidableEq

inductive ChangeKind | added | removed | changed
  deriving DecidableEq

structure GoldenQuoteChange where
  name : String
  change : ChangeKind
  changedFields : List StepField
  before : Option GoldenQuoteExpected
  after : Option GoldenQuoteExpected
  beforeTolerance : Option ℤ
  afterTolerance : Option ℤ
  beforeContextHash : Option String
  afterContextHash : Option String
  steps : List GoldenQuoteChangeStep
  deriving DecidableEq

structure GoldenQuoteDelta where
  baselineRatingVersionRef : Option ArtifactRef
  baselineSuiteRef : Option ArtifactRef
  baselineSuiteContentHash : Option String
  changes : List GoldenQuoteChange
  deriving DecidableEq

inductive Refusal
  | authorUnresolved (suite : String) (version : ℕ)
  | invalidChange (name : String)
  | unreadable
  deriving DecidableEq

section

variable {κ : Type} (host : Host κ)

def contextHash (c : κ) : String := host.sha256 (host.canonicalJson c)

/-- `_compared`: the note is not one of the fields. -/
def compared (q : SuiteQuote κ) : GoldenQuoteExpected × ℤ × String :=
  (q.expected, q.toleranceMinor, contextHash host q.context)

/-- `_step_fields`. -/
def stepFields : Option (SuiteQuote κ) → Option (SuiteQuote κ) → List StepField
  | none, none => []
  | none, some _ => [.added]
  | some _, none => [.removed]
  | some before, some after =>
    (if before.expected ≠ after.expected then [.expected] else []) ++
    (if before.toleranceMinor ≠ after.toleranceMinor then [.tolerance] else []) ++
    if contextHash host before.context ≠ contextHash host after.context then [.context] else []

def names (quotes : List (SuiteQuote κ)) : List String := quotes.map fun q => q.name

/-- `{quote.name: quote}`. -/
def quoteOf (quotes : List (SuiteQuote κ)) (name : String) : Option (SuiteQuote κ) :=
  byKey (fun q : SuiteQuote κ => q.name) quotes name

/-- `_quotes(by_number.get(number))`: a number without a version has no quotes. -/
def SuiteHistory.quotesAt (h : SuiteHistory κ) (number : ℕ) : List (SuiteQuote κ) :=
  ((byKey SuiteVersion.version h.versions number).map SuiteVersion.goldenQuotes).getD []

/-- The names that two versions differ in, with the fields of each. -/
def touched (previous quotes : List (SuiteQuote κ)) : List (String × List StepField) :=
  (sortedSet (names previous ++ names quotes)).filterMap fun name =>
    let fields := stepFields host (quoteOf previous name) (quoteOf quotes name)
    if fields = [] then none else some (name, fields)

end

/-! ## Authors -/

/-- The suite whose versions are walked, in its workspace, and the audit events. -/
structure Trail where
  workspaceId : UUID
  suiteSlug : String
  events : List Governance.AuditEventRow

def createdAction : String := "regression_suite.created"

def Trail.actorOf (trail : Trail) (version : ℕ) : Option UUID :=
  (trail.events.find? fun e => e.workspace_id = trail.workspaceId ∧ e.action = createdAction ∧
    e.entity_ref = ⟨"regression_suite", trail.suiteSlug, version⟩).map fun e => e.actor

/-- `_author_of_suite_version`. -/
def Trail.authorOf (trail : Trail) (version : ℕ) : Except Refusal UUID :=
  require (trail.actorOf version) (.authorUnresolved trail.suiteSlug version)

/-! ## The delta -/

section

variable {κ : Type} (host : Host κ) (trail : Trail) (history : SuiteHistory κ)

/-- The loop over the versions: the steps so far, by name. -/
def walk : List ℕ → List (SuiteQuote κ) → List (String × GoldenQuoteChangeStep) →
    Except Refusal (List (String × GoldenQuoteChangeStep))
  | [], _, steps => .ok steps
  | number :: numbers, previous, steps => do
    let quotes := history.quotesAt number
    let fields := touched host previous quotes
    if fields = [] then walk numbers quotes steps
    else
      let author ← trail.authorOf number
      walk numbers quotes (steps ++ fields.map fun f => (f.1, ⟨number, f.2, author⟩))

/-- The check of a version that the last approval pinned. -/
structure BaselineCheck where
  suiteRef : ArtifactRef
  suiteContentHash : String

/-- The suite version to compare with: zero where the check is of another suite, or of none. -/
def baselineVersion (check : Option BaselineCheck) : ℕ := match check with
  | some c =>
    if c.suiteRef.slug = trail.suiteSlug ∧ c.suiteRef.version ∈ history.versions.map SuiteVersion.version
    then c.suiteRef.version else 0
  | none => 0

/-- The net change of a name. -/
def changeOf (steps : List GoldenQuoteChangeStep) (name : String) (before after : Option (SuiteQuote κ)) :
    Option GoldenQuoteChange :=
  let net := stepFields host before after
  if net = [] then none
  else
    let change : ChangeKind :=
      if before.isNone then .added else if after.isNone then .removed else .changed
    some {
      name, change, steps
      changedFields := if change = .changed then net else []
      before := before.map SuiteQuote.expected
      after := after.map SuiteQuote.expected
      beforeTolerance := before.map fun q => q.toleranceMinor
      afterTolerance := after.map fun q => q.toleranceMinor
      beforeContextHash := before.map fun q => contextHash host q.context
      afterContextHash := after.map fun q => contextHash host q.context }

/-- The validator of a change. -/
def GoldenQuoteChange.validate (c : GoldenQuoteChange) : Except Refusal GoldenQuoteChange := do
  ensure (c.steps ≠ []) (.invalidChange c.name)
  ensure (c.change = .changed ↔ c.changedFields ≠ []) (.invalidChange c.name)
  ensure ((c.steps.map GoldenQuoteChangeStep.version).Pairwise (· < ·)) (.invalidChange c.name)
  return c

def stepsOf (steps : List (String × GoldenQuoteChangeStep)) (name : String) :
    List GoldenQuoteChangeStep :=
  (steps.filter fun s => s.1 = name).map Prod.snd

/-- `_golden_quote_delta`, of the history up to its current version, with the last approved version and
its check. -/
def goldenQuoteDelta (found : Option (ArtifactRef × Option BaselineCheck)) :
    Except Refusal GoldenQuoteDelta := do
  let check := found.bind Prod.snd
  let baseline := baselineVersion trail history check
  let current := history.versions.length
  let previous := history.quotesAt baseline
  let steps ← walk host trail history (List.range' (baseline + 1) (current - baseline)) previous []
  let quotes := history.quotesAt current
  let changes := (sortedSet (names previous ++ names quotes)).filterMap fun name =>
    changeOf host (stepsOf steps name) name (quoteOf previous name) (quoteOf quotes name)
  let changes ← changes.mapM GoldenQuoteChange.validate
  return {
    baselineRatingVersionRef := found.bind fun f => f.2.map fun _ => f.1
    baselineSuiteRef := check.map BaselineCheck.suiteRef
    baselineSuiteContentHash := check.map BaselineCheck.suiteContentHash
    changes }

end

/-! ## The stored evidence -/

structure GoldenQuoteCheck where
  suiteRef : ArtifactRef
  suiteContentHash : String
  bundleHash : String
  results : List GoldenQuoteResult
  delta : GoldenQuoteDelta
  deriving DecidableEq

/-- How a check is written to the evidence and read from it. -/
structure Codec (J : Type) where
  modelDump : GoldenQuoteCheck → J
  modelValidate : J → Option GoldenQuoteCheck
  status : J → Option String

/-- A check that is written is read as it was. -/
structure Codec.Reads {J : Type} (codec : Codec J) : Prop where
  status : ∀ check, codec.status (codec.modelDump check) = some "checked"
  validate : ∀ check, codec.modelValidate (codec.modelDump check) = some check

/-- `golden_quote_delta_authors` of the pinned evidence of a version. -/
def goldenQuoteDeltaAuthors {J : Type} (codec : Codec J) (pinned : Option J) :
    Except Refusal (List UUID) :=
  match pinned with
  | none => .ok []
  | some pinned =>
    if codec.status pinned = some "checked" then do
      let check ← require (codec.modelValidate pinned) .unreadable
      return check.delta.changes.flatMap fun c => c.steps.map GoldenQuoteChangeStep.author
    else .ok []

/-! ## What a version touches -/

section

variable {κ : Type} {host : Host κ} {trail : Trail} {history : SuiteHistory κ} {name : String}
  {previous quotes : List (SuiteQuote κ)} {before after : Option (SuiteQuote κ)}

theorem stepFields_eq_nil :
    stepFields host before after = [] ↔ before.map (compared host) = after.map (compared host) := by
  cases before with
  | none => cases after <;> simp [stepFields]
  | some b =>
    cases after with
    | none => simp [stepFields]
    | some a =>
      simp only [stepFields, compared, List.append_eq_nil_iff, ite_eq_right_iff, List.cons_ne_self,
        imp_false, not_not, Option.map_some, Option.some.injEq, Prod.mk.injEq, and_assoc]

theorem quoteOf_eq_none : quoteOf previous name = none ↔ name ∉ names previous := byKey_eq_none

theorem stepFields_of_notMem (h : name ∉ names previous ++ names quotes) :
    stepFields host (quoteOf previous name) (quoteOf quotes name) = [] := by
  obtain ⟨hp, hq⟩ := not_or.mp (fun hm => h (List.mem_append.mpr hm))
  rw [quoteOf_eq_none.mpr hp, quoteOf_eq_none.mpr hq]
  rfl

/-- What a version touches of a name. -/
theorem touched_filter (f : List StepField → GoldenQuoteChangeStep) :
    stepsOf ((touched host previous quotes).map fun t => (t.1, f t.2)) name =
      if stepFields host (quoteOf previous name) (quoteOf quotes name) = [] then []
      else [f (stepFields host (quoteOf previous name) (quoteOf quotes name))] := by
  have hnames : stepsOf ((touched host previous quotes).map fun t => (t.1, f t.2)) name =
      ((sortedSet (names previous ++ names quotes)).filter (· = name)).filterMap fun n =>
        let fields := stepFields host (quoteOf previous n) (quoteOf quotes n)
        if fields = [] then none else some (f fields) := by
    rw [stepsOf, touched]
    generalize sortedSet (names previous ++ names quotes) = l
    induction l with
    | nil => rfl
    | cons n l ih =>
      by_cases hn : n = name <;>
        by_cases hf : stepFields host (quoteOf previous n) (quoteOf quotes n) = [] <;>
        simp_all
  have hfilter : (sortedSet (names previous ++ names quotes)).filter (· = name) =
      if name ∈ names previous ++ names quotes then [name] else [] := by
    rw [List.filter_eq]
    split_ifs with h
    · rw [List.count_eq_one_of_mem (nodup_sortedSet _) (mem_sortedSet.mpr h)]
      rfl
    · rw [List.count_eq_zero_of_not_mem fun hm => h (mem_sortedSet.mp hm)]
      rfl
  rw [hnames, hfilter]
  split_ifs with hmem hf hf
  · simp [hf]
  · simp [hf]
  · rfl
  · exact absurd (stepFields_of_notMem hmem) hf

theorem touched_eq_nil : touched host previous quotes = [] ↔
    ∀ name, stepFields host (quoteOf previous name) (quoteOf quotes name) = [] := by
  rw [touched, List.filterMap_eq_nil_iff]
  constructor
  · intro h name
    by_cases hmem : name ∈ names previous ++ names quotes
    · by_contra hf
      simpa [hf] using h name (mem_sortedSet.mpr hmem)
    · exact stepFields_of_notMem hmem
  · intro h name _
    simp [h name]

/-! ## The walk -/

/-- What version `n` changed of a name. -/
def fieldsAt (host : Host κ) (history : SuiteHistory κ) (name : String) (n : ℕ) : List StepField :=
  stepFields host (quoteOf (history.quotesAt (n - 1)) name) (quoteOf (history.quotesAt n) name)

/-- Version `n` has no author though it changed a quote. -/
def Unresolved (host : Host κ) (trail : Trail) (history : SuiteHistory κ) (n : ℕ) : Prop :=
  (∃ name, fieldsAt host history name n ≠ []) ∧ trail.actorOf n = none

/-- The step of a name at version `n`, where it touched the name. -/
def stepAt (host : Host κ) (trail : Trail) (history : SuiteHistory κ) (name : String) (n : ℕ) :
    Option GoldenQuoteChangeStep :=
  if fieldsAt host history name n = [] then none
  else (trail.actorOf n).map fun author => ⟨n, fieldsAt host history name n, author⟩

theorem stepsOf_append (l l' : List (String × GoldenQuoteChangeStep)) :
    stepsOf (l ++ l') name = stepsOf l name ++ stepsOf l' name := by simp [stepsOf]

/-- The walk ends exactly where every version that touched a quote has an author, and then a name has
the step of each version that touched it. -/
theorem walk_spec (b k : ℕ) (steps : List (String × GoldenQuoteChangeStep)) :
    (∀ result, walk host trail history (List.range' (b + 1) k) (history.quotesAt b) steps = .ok result →
      (∀ n ∈ List.range' (b + 1) k, ¬ Unresolved host trail history n) ∧
      ∀ name, stepsOf result name = stepsOf steps name ++
        (List.range' (b + 1) k).filterMap (stepAt host trail history name)) ∧
    ((∀ n ∈ List.range' (b + 1) k, ¬ Unresolved host trail history n) →
      ∃ result, walk host trail history (List.range' (b + 1) k) (history.quotesAt b) steps =
        .ok result) := by
  induction k generalizing b steps with
  | zero => simp [walk]
  | succ k ih =>
    have hfields : ∀ name, fieldsAt host history name (b + 1) =
        stepFields host (quoteOf (history.quotesAt b) name) (quoteOf (history.quotesAt (b + 1)) name) :=
      fun _ => rfl
    rw [List.range'_succ, walk]
    by_cases htouched : touched host (history.quotesAt b) (history.quotesAt (b + 1)) = []
    · have hnone : ∀ name, fieldsAt host history name (b + 1) = [] := touched_eq_nil.mp htouched
      have hresolved : ¬ Unresolved host trail history (b + 1) := fun h =>
        h.1.elim fun name hname => hname (hnone name)
      simp only [htouched, if_true, List.mem_cons, forall_eq_or_imp, hresolved, not_false_eq_true,
        true_and, List.filterMap_cons, stepAt, hnone]
      exact ih (b + 1) steps
    · have hsome : ∃ name, fieldsAt host history name (b + 1) ≠ [] := by
        by_contra hnone
        push Not at hnone
        exact htouched (touched_eq_nil.mpr hnone)
      simp only [htouched, if_false, Trail.authorOf]
      cases hactor : trail.actorOf (b + 1) with
      | none =>
        have hunresolved : Unresolved host trail history (b + 1) := ⟨hsome, hactor⟩
        simp [require, bind, Except.bind, hunresolved]
      | some author =>
        have hresolved : ¬ Unresolved host trail history (b + 1) := fun h => by
          simp [Unresolved, hactor] at h
        have hadded : ∀ name, stepsOf
            ((touched host (history.quotesAt b) (history.quotesAt (b + 1))).map fun t =>
              (t.1, (⟨b + 1, t.2, author⟩ : GoldenQuoteChangeStep))) name =
            (stepAt host trail history name (b + 1)).toList := by
          intro name
          rw [touched_filter fun fields => ⟨b + 1, fields, author⟩, stepAt, ← hfields, hactor]
          split_ifs <;> rfl
        obtain ⟨hok, hall⟩ := ih (b + 1) (steps ++
          (touched host (history.quotesAt b) (history.quotesAt (b + 1))).map fun t =>
            (t.1, ⟨b + 1, t.2, author⟩))
        simp only [require, Option.elim_some, List.mem_cons, forall_eq_or_imp, hresolved,
          not_false_eq_true, true_and]
        refine ⟨fun result hresult => ?_, hall⟩
        obtain ⟨hnone, hsteps⟩ := hok result hresult
        refine ⟨hnone, fun name => ?_⟩
        rw [hsteps, stepsOf_append, hadded, List.append_assoc, List.filterMap_cons]
        cases stepAt host trail history name (b + 1) <;> rfl

/-! ## The net change and the walk -/

theorem compared_of_untouched (b k : ℕ)
    (h : ∀ n ∈ List.range' (b + 1) k, fieldsAt host history name n = []) :
    (quoteOf (history.quotesAt b) name).map (compared host) =
      (quoteOf (history.quotesAt (b + k)) name).map (compared host) := by
  induction k with
  | zero => rfl
  | succ k ih =>
    have hlast := h (b + k + 1) (List.mem_range'_1.mpr (by omega))
    have hstep := stepFields_eq_nil.mp hlast
    have hprev := ih fun n hn => h n (List.mem_range'_1.mpr (by
      have := List.mem_range'_1.mp hn
      omega))
    rw [hprev, ← Nat.add_assoc, ← hstep]
    rfl

theorem stepAt_eq_some {n : ℕ} {s : GoldenQuoteChangeStep}
    (h : stepAt host trail history name n = some s) : fieldsAt host history name n ≠ [] ∧
      s.version = n ∧ s.changedFields = fieldsAt host history name n ∧
      trail.actorOf n = some s.author := by
  unfold stepAt at h
  split_ifs at h with hf
  obtain ⟨author, hauthor, rfl⟩ := Option.map_eq_some_iff.mp h
  exact ⟨hf, rfl, rfl, hauthor⟩

theorem stepAt_versions {l : List ℕ} (h : ∀ n ∈ l, ¬ Unresolved host trail history n) :
    (l.filterMap (stepAt host trail history name)).map GoldenQuoteChangeStep.version =
      l.filter fun n => fieldsAt host history name n ≠ [] := by
  induction l with
  | nil => rfl
  | cons n l ih =>
    have ih := ih fun m hm => h m (List.mem_cons_of_mem _ hm)
    by_cases hf : fieldsAt host history name n = []
    · simpa [stepAt, hf] using ih
    · cases hactor : trail.actorOf n with
      | none => exact absurd ⟨⟨name, hf⟩, hactor⟩ (h n List.mem_cons_self)
      | some author => simpa [stepAt, hf, hactor] using ih

theorem steps_ne_nil {b k : ℕ} (h : ∀ n ∈ List.range' (b + 1) k, ¬ Unresolved host trail history n)
    (hnet : stepFields host (quoteOf (history.quotesAt b) name)
      (quoteOf (history.quotesAt (b + k)) name) ≠ []) :
    (List.range' (b + 1) k).filterMap (stepAt host trail history name) ≠ [] := by
  intro hnil
  have hversions :
      ((List.range' (b + 1) k).filterMap (stepAt host trail history name)).map
          GoldenQuoteChangeStep.version =
        (List.range' (b + 1) k).filter fun n => fieldsAt host history name n ≠ [] :=
    stepAt_versions h
  rw [hnil, List.map_nil, eq_comm, List.filter_eq_nil_iff] at hversions
  exact hnet (stepFields_eq_nil.mpr (compared_of_untouched b k fun n hn => by simpa using hversions n hn))

theorem changeOf_eq_none {steps : List GoldenQuoteChangeStep} :
    changeOf host steps name before after = none ↔ stepFields host before after = [] := by
  simp [changeOf]

theorem changeOf_eq_some {steps : List GoldenQuoteChangeStep} {c : GoldenQuoteChange}
    (h : changeOf host steps name before after = some c) : stepFields host before after ≠ [] ∧
      c.name = name ∧ c.steps = steps ∧ (c.change = .changed ↔ c.changedFields ≠ []) := by
  by_cases hnet : stepFields host before after = []
  · rw [changeOf_eq_none.mpr hnet] at h
    cases h
  · rw [changeOf, if_neg hnet] at h
    obtain rfl := Option.some.inj h
    refine ⟨hnet, rfl, rfl, ?_⟩
    generalize (if before.isNone then ChangeKind.added
      else if after.isNone then .removed else .changed) = kind
    by_cases hkind : kind = .changed <;> simp [hkind, hnet]

theorem validate_eq_ok {c c' : GoldenQuoteChange} : c.validate = .ok c' ↔
    c = c' ∧ c.steps ≠ [] ∧ (c.change = .changed ↔ c.changedFields ≠ []) ∧
      (c.steps.map GoldenQuoteChangeStep.version).Pairwise (· < ·) := by
  simp only [GoldenQuoteChange.validate, ensure_bind_eq_ok, pure_eq_ok]
  tauto

theorem baselineVersion_le (check : Option BaselineCheck) :
    baselineVersion trail history check ≤ history.versions.length := by
  unfold baselineVersion
  split
  · split_ifs with h
    · have hmem := h.2
      rw [history.numbered, List.mem_range'_1] at hmem
      omega
    · exact Nat.zero_le _
  · exact Nat.zero_le _

end

/-! ## The delta is complete -/

section

variable {κ : Type} (host : Host κ) (trail : Trail) (history : SuiteHistory κ)

/-- Two versions of a quote differ: in the expected output, the tolerance or the context, or only one
of them is there. -/
def Differs (before after : Option (SuiteQuote κ)) : Prop := match before, after with
  | none, none => False
  | some b, some a => b.expected ≠ a.expected ∨ b.toleranceMinor ≠ a.toleranceMinor ∨
      host.canonicalJson b.context ≠ host.canonicalJson a.context
  | none, some _ | some _, none => True

instance (before after : Option (SuiteQuote κ)) : Decidable (Differs host before after) :=
  match before, after with
  | none, none => inferInstanceAs (Decidable False)
  | some _, some _ => inferInstanceAs (Decidable (_ ∨ _ ∨ _))
  | none, some _ | some _, none => inferInstanceAs (Decidable True)

/-- Version `n` touched a name. -/
def Touches (n : ℕ) (name : String) : Prop :=
  Differs host (quoteOf (history.quotesAt (n - 1)) name) (quoteOf (history.quotesAt n) name)

instance (n : ℕ) (name : String) : Decidable (Touches host history n name) :=
  inferInstanceAs (Decidable (Differs _ _ _))

variable {host trail history}

theorem differs_iff (hinj : Function.Injective host.sha256) {before after : Option (SuiteQuote κ)} :
    Differs host before after ↔ stepFields host before after ≠ [] := by
  rw [Ne, stepFields_eq_nil]
  cases before <;> cases after <;> simp only [Differs, compared, contextHash, Option.map_none,
    Option.map_some, Option.some.injEq, Prod.mk.injEq, hinj.eq_iff] <;> tauto

theorem touches_iff (hinj : Function.Injective host.sha256) {n : ℕ} {name : String} :
    Touches host history n name ↔ fieldsAt host history name n ≠ [] := differs_iff hinj

theorem goldenQuoteDelta_eq_ok {found : Option (ArtifactRef × Option BaselineCheck)} {b : ℕ}
    (hb : baselineVersion trail history (found.bind Prod.snd) = b) {delta : GoldenQuoteDelta}
    (h : goldenQuoteDelta host trail history found = .ok delta) :
    ∃ steps, walk host trail history (List.range' (b + 1) (history.versions.length - b))
        (history.quotesAt b) [] = .ok steps ∧
      delta.changes = (sortedSet (names (history.quotesAt b) ++
          names (history.quotesAt history.versions.length))).filterMap fun name =>
        changeOf host (stepsOf steps name) name (quoteOf (history.quotesAt b) name)
          (quoteOf (history.quotesAt history.versions.length) name) := by
  simp only [goldenQuoteDelta, hb, Failure.bind_eq_ok, pure_eq_ok] at h
  obtain ⟨steps, hsteps, changes, hchanges, rfl⟩ := h
  have hsame : List.Forall₂ Eq _ changes :=
    (mapM_eq_ok.mp hchanges).imp fun _ _ hc => (validate_eq_ok.mp hc).1
  exact ⟨steps, hsteps, (List.forall₂_eq_eq_eq ▸ hsame : _ = changes).symm⟩

theorem mem_changes {b c : ℕ} {steps : List (String × GoldenQuoteChangeStep)} {change : GoldenQuoteChange}
    (h : change ∈ (sortedSet (names (history.quotesAt b) ++ names (history.quotesAt c))).filterMap
      fun name => changeOf host (stepsOf steps name) name (quoteOf (history.quotesAt b) name)
        (quoteOf (history.quotesAt c) name)) :
    stepFields host (quoteOf (history.quotesAt b) change.name)
        (quoteOf (history.quotesAt c) change.name) ≠ [] ∧
      change.steps = stepsOf steps change.name ∧
      (change.change = .changed ↔ change.changedFields ≠ []) := by
  obtain ⟨name, -, hchange⟩ := List.mem_filterMap.mp h
  obtain ⟨hnet, rfl, hsteps, hkind⟩ := changeOf_eq_some hchange
  exact ⟨hnet, hsteps, hkind⟩

theorem changes_names {b c : ℕ} {steps : List (String × GoldenQuoteChangeStep)} :
    ((sortedSet (names (history.quotesAt b) ++ names (history.quotesAt c))).filterMap
      fun name => changeOf host (stepsOf steps name) name (quoteOf (history.quotesAt b) name)
        (quoteOf (history.quotesAt c) name)).map GoldenQuoteChange.name =
    (sortedSet (names (history.quotesAt b) ++ names (history.quotesAt c))).filter fun name =>
      stepFields host (quoteOf (history.quotesAt b) name) (quoteOf (history.quotesAt c) name) ≠ [] := by
  generalize sortedSet (names (history.quotesAt b) ++ names (history.quotesAt c)) = l
  induction l with
  | nil => rfl
  | cons name l ih =>
    cases hchange : changeOf host (stepsOf steps name) name (quoteOf (history.quotesAt b) name)
        (quoteOf (history.quotesAt c) name) with
    | none =>
      have hnet := changeOf_eq_none.mp hchange
      simp only [List.filterMap_cons, hchange]
      rw [ih, List.filter_cons_of_neg (by simpa using hnet)]
    | some change =>
      obtain ⟨hnet, hname, -, -⟩ := changeOf_eq_some hchange
      simp only [List.filterMap_cons, hchange, List.map_cons]
      rw [ih, hname, List.filter_cons_of_pos (by simpa using hnet)]

theorem stepsOf_walk {b k : ℕ} {steps : List (String × GoldenQuoteChangeStep)}
    (h : walk host trail history (List.range' (b + 1) k) (history.quotesAt b) [] = .ok steps) :
    (∀ n ∈ List.range' (b + 1) k, ¬ Unresolved host trail history n) ∧
      ∀ name, stepsOf steps name = (List.range' (b + 1) k).filterMap (stepAt host trail history name) := by
  obtain ⟨hnone, hsteps⟩ := (walk_spec b k []).1 steps h
  exact ⟨hnone, fun name => by rw [hsteps]; rfl⟩

theorem exists_goldenQuoteDelta {found : Option (ArtifactRef × Option BaselineCheck)} {b : ℕ}
    (hb : baselineVersion trail history (found.bind Prod.snd) = b)
    (h : ∀ n ∈ List.range' (b + 1) (history.versions.length - b), ¬ Unresolved host trail history n) :
    ∃ delta, goldenQuoteDelta host trail history found = .ok delta := by
  obtain ⟨steps, hsteps⟩ := (walk_spec b (history.versions.length - b) []).2 h
  obtain ⟨-, hof⟩ := stepsOf_walk hsteps
  have hle : b ≤ history.versions.length := hb ▸ baselineVersion_le _
  have hvalid : ∀ c ∈ (sortedSet (names (history.quotesAt b) ++
      names (history.quotesAt history.versions.length))).filterMap fun name =>
        changeOf host (stepsOf steps name) name (quoteOf (history.quotesAt b) name)
          (quoteOf (history.quotesAt history.versions.length) name),
      ∃ c', c.validate = .ok c' := by
    intro c hc
    obtain ⟨hnet, hcsteps, hkind⟩ := mem_changes hc
    refine ⟨c, validate_eq_ok.mpr ⟨rfl, ?_, hkind, ?_⟩⟩
    · rw [hcsteps, hof]
      refine steps_ne_nil h ?_
      rwa [Nat.add_sub_cancel' hle]
    · rw [hcsteps, hof, stepAt_versions h]
      exact (List.pairwise_lt_range' ).filter _
  obtain ⟨changes, hchanges⟩ := exists_mapM_ok hvalid
  simp only [goldenQuoteDelta, hb, Failure.bind_eq_ok, pure_eq_ok]
  exact ⟨_, steps, hsteps, changes, hchanges, rfl⟩

/-! ## The authors -/

variable {J : Type} {codec : Codec J}

theorem goldenQuoteDeltaAuthors_dump (hcodec : codec.Reads) (check : GoldenQuoteCheck) :
    goldenQuoteDeltaAuthors codec (some (codec.modelDump check)) =
      .ok (check.delta.changes.flatMap fun c => c.steps.map GoldenQuoteChangeStep.author) := by
  simp [goldenQuoteDeltaAuthors, hcodec.status, hcodec.validate, require, bind, Except.bind, pure,
    Except.pure]

theorem approver_no_author (hcodec : codec.Reads) {check : GoldenQuoteCheck}
    {pinned : Governance.ArtifactRef → Option J} {g g' : Governance.Store} {d : Governance.Decision}
    {row : Governance.ApprovalRequestRow}
    (hd : d.evidence_authors = some fun ref => (goldenQuoteDeltaAuthors codec (pinned ref)).toOption)
    (h : Governance.decide g d = .ok (g', row)) (htype : row.artifact_type = "rating_version")
    (hpinned : pinned row.artifact_ref = some (codec.modelDump check)) :
    ∀ c ∈ check.delta.changes, ∀ s ∈ c.steps, d.approver.id ≠ s.author := by
  obtain ⟨old, hdecided⟩ := Governance.decide_eq_ok h
  have href : old.artifact_ref = row.artifact_ref := by rw [hdecided.new_eq]
  have hold : old.artifact_type = "rating_version" := by
    rwa [Governance.ApprovalRequestRow.artifact_type, href]
  have hevidence := hdecided.evidence
  rw [Governance.checkEvidenceAuthors, if_pos hold, hd, href] at hevidence
  simp only [hpinned, goldenQuoteDeltaAuthors_dump hcodec, Except.toOption, require, Option.elim_some,
    Failure.bind_eq_ok, Except.ok.injEq, exists_eq_left', ensure_eq_ok] at hevidence
  intro c hc s hs heq
  exact hevidence (List.mem_flatMap.mpr ⟨c, hc, heq ▸ List.mem_map_of_mem hs⟩)

/-- The delta of any history and any baseline in it, or none, is made exactly where every version that
touched a quote has an author. It lists the names that differ between the baseline and the current
version, each with one step for every version that touched it, in order, with its author; the authors
that are read back from the evidence are all of them, and none of them decides. -/
theorem goldenQuoteDelta_complete (hinj : Function.Injective host.sha256) (hcodec : codec.Reads)
    (found : Option (ArtifactRef × Option BaselineCheck)) {b : ℕ}
    (hb : baselineVersion trail history (found.bind Prod.snd) = b) :
    ((∃ delta, goldenQuoteDelta host trail history found = .ok delta) ↔
      ∀ n ∈ List.range' (b + 1) (history.versions.length - b),
        (∃ name, Touches host history n name) → trail.actorOf n ≠ none) ∧
    ∀ delta, goldenQuoteDelta host trail history found = .ok delta →
      (delta.changes.map GoldenQuoteChange.name).Nodup ∧
      (∀ name, name ∈ delta.changes.map GoldenQuoteChange.name ↔
        Differs host (quoteOf (history.quotesAt b) name)
          (quoteOf (history.quotesAt history.versions.length) name)) ∧
      (∀ c ∈ delta.changes, c.steps ≠ [] ∧
        c.steps.map GoldenQuoteChangeStep.version =
          (List.range' (b + 1) (history.versions.length - b)).filter
            (fun n => Touches host history n c.name) ∧
        ∀ s ∈ c.steps, trail.actorOf s.version = some s.author) ∧
      ∀ check : GoldenQuoteCheck, check.delta = delta →
        (∃ authors, goldenQuoteDeltaAuthors codec (some (codec.modelDump check)) = .ok authors ∧
          ∀ c ∈ delta.changes, ∀ s ∈ c.steps, s.author ∈ authors) ∧
        ∀ (pinned : Governance.ArtifactRef → Option J) (g g' : Governance.Store)
          (d : Governance.Decision) (row : Governance.ApprovalRequestRow),
          d.evidence_authors =
            some (fun ref => (goldenQuoteDeltaAuthors codec (pinned ref)).toOption) →
          Governance.decide g d = .ok (g', row) → row.artifact_type = "rating_version" →
          pinned row.artifact_ref = some (codec.modelDump check) →
          ∀ c ∈ delta.changes, ∀ s ∈ c.steps, d.approver.id ≠ s.author := by
  have hresolved : ∀ n, ¬ Unresolved host trail history n ↔
      ((∃ name, Touches host history n name) → trail.actorOf n ≠ none) := by
    intro n
    simp only [Unresolved, touches_iff hinj]
    tauto
  refine ⟨⟨?_, fun h => exists_goldenQuoteDelta hb fun n hn => (hresolved n).mpr (h n hn)⟩, ?_⟩
  · rintro ⟨delta, hdelta⟩ n hn
    obtain ⟨steps, hsteps, -⟩ := goldenQuoteDelta_eq_ok hb hdelta
    exact (hresolved n).mp ((stepsOf_walk hsteps).1 n hn)
  · intro delta hdelta
    obtain ⟨steps, hsteps, hchanges⟩ := goldenQuoteDelta_eq_ok hb hdelta
    obtain ⟨hnone, hof⟩ := stepsOf_walk hsteps
    have hle : b ≤ history.versions.length := hb ▸ baselineVersion_le _
    refine ⟨?_, fun name => ?_, fun c hc => ?_, fun check hcheck => ⟨?_, ?_⟩⟩
    · rw [hchanges, changes_names]
      exact (nodup_sortedSet _).filter _
    · rw [hchanges, changes_names, List.mem_filter, mem_sortedSet, differs_iff hinj, decide_eq_true_eq]
      exact ⟨And.right, fun h => ⟨by_contra fun hmem => h (stepFields_of_notMem hmem), h⟩⟩
    · rw [hchanges] at hc
      obtain ⟨hnet, hcsteps, -⟩ := mem_changes hc
      rw [hcsteps, hof]
      refine ⟨?_, ?_, fun s hs => ?_⟩
      · refine steps_ne_nil hnone ?_
        rwa [Nat.add_sub_cancel' hle]
      · rw [stepAt_versions hnone]
        exact List.filter_congr fun n _ => by simp only [touches_iff hinj]
      · obtain ⟨n, -, hstep⟩ := List.mem_filterMap.mp hs
        obtain ⟨-, rfl, -, hauthor⟩ := stepAt_eq_some hstep
        exact hauthor
    · subst hcheck
      exact ⟨_, goldenQuoteDeltaAuthors_dump hcodec check, fun c hc s hs =>
        List.mem_flatMap.mpr ⟨c, hc, List.mem_map_of_mem hs⟩⟩
    · subst hcheck
      intro pinned g g' d row hd h htype hpinned
      exact approver_no_author hcodec hd h htype hpinned

end

/-! ## A quote that is added and then changed -/

def quoteJson : String :=
  "\x7b\"effective_date\":\"2026-01-01\",\"inputs\":\x7b\"age\":40\x7d,\"options\":null,\"purpose\":\"new_business\",\"quote_id\":null,\"quoted_at\":\"2026-01-01T00:00:00Z\"\x7d"

/-- The digest of the one context there is. -/
def quoteHost : Host String where
  canonicalJson := id
  sha256 := Equiv.swap quoteJson
    "sha256:1d635567e41a5d4f76bff750a99dfb1e97e6e90a277099783bd8a674999bf41b"

def quotedAt (premium : ℤ) : SuiteQuote String :=
  ⟨"young-driver", quoteJson, ⟨some premium, .quoted⟩, 0, none⟩

def quoteHistory : SuiteHistory String :=
  ⟨[⟨1, [quotedAt 10000], by decide⟩, ⟨2, [quotedAt 12000], by decide⟩], by decide⟩

def quoteTrail : Trail :=
  ⟨1, "motor-suite", [⟨1, ⟨"regression_suite", "motor-suite", 1⟩, createdAction, 7⟩,
    ⟨1, ⟨"regression_suite", "motor-suite", 2⟩, createdAction, 8⟩]⟩

def plainCodec : Codec GoldenQuoteCheck := ⟨id, some, fun _ => some "checked"⟩

theorem youngDriver_listed :
    ∃ delta, goldenQuoteDelta quoteHost quoteTrail quoteHistory none = .ok delta ∧
      "young-driver" ∈ delta.changes.map GoldenQuoteChange.name ∧
      ∀ c ∈ delta.changes, ∀ s ∈ c.steps, quoteTrail.actorOf s.version = some s.author := by
  have hinj : Function.Injective quoteHost.sha256 := Equiv.injective _
  have hcodec : plainCodec.Reads := ⟨fun _ => rfl, fun _ => rfl⟩
  have hactors : ∀ n ∈ List.range' 1 2, quoteTrail.actorOf n ≠ none := by decide
  have hall := @goldenQuoteDelta_complete String quoteHost quoteTrail quoteHistory _ plainCodec hinj
    hcodec none 0 rfl
  obtain ⟨delta, hdelta⟩ := hall.1.mpr fun n hn _ => hactors n hn
  obtain ⟨-, hnames, hsteps, -⟩ := hall.2 delta hdelta
  exact ⟨delta, hdelta, (hnames _).mpr (by decide), fun c hc => (hsteps c hc).2.2⟩

end GiPricing.GoldenDelta
