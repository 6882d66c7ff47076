import GiPricing.Failure.Lists
import GiPricing.Money.Arithmetic
import GiPricing.Perils.Structure

/-! # The two compositions of a premium

The rating path composes the premium of a structure for one quote in the decimal arithmetic of 28
digits, and `assemble_risk_premium` over arrays. Both are to give the sum over the perils of the cost
of each, restored by its own treatment.
-/

namespace GiPricing.Perils

open Decimal Failure Money

variable {K : Type} [Field K] [LinearOrder K]

/-! ## The rating path -/

inductive ScoreError
  | modelling (code message : String)
  | assertion
  | keyError
  | arithmetic (e : MoneyError)
  deriving DecidableEq

structure Arithmetic (K : Type) where
  loading : ℚ → K
  mul : K → K → Except MoneyError K
  add : K → K → Except MoneyError K

/-- The decimals of the standard context. -/
def decimals : Arithmetic ℚ where
  loading := id
  mul a b := fix (a * b)
  add a b := fix (a + b)

/-- The numbers without rounding. -/
def exactly (K : Type) [Field K] : Arithmetic K where
  loading := (↑)
  mul a b := .ok (a * b)
  add a b := .ok (a + b)

def ArtifactRef.canonical (ref : ArtifactRef) : String := s!"{ref.type}:{ref.slug}@{ref.version}"

/-- `_decimal` -/
def decimal (value : Number) (peril : String) : Except ScoreError ℚ := match value with
  | .finite q => .ok q
  | _ => .error (.modelling "PERIL_STRUCTURE_RECONCILIATION_FAILED"
      s!"peril {peril} predicts a non-finite value (FR-188)")

/-- `peril_component_refs` -/
def perilComponentRefs (perils : List PerilComponent) : List ArtifactRef :=
  (perils.flatMap fun p =>
    [p.frequencyModel, p.severityModel, p.burningCostModel].reduceOption).eraseDups

/-- The refusal of a treatment that nothing computes, when the structure is compiled. -/
def refuseSeparateModel (structureRef : String) (perils : List PerilComponent) :
    Except ScoreError Unit :=
  perils.forM fun p => ensure (p.largeLoss.kind ≠ .separateModel)
    (.modelling "LOSS_TREATMENT_UNIMPLEMENTED"
      (s!"{structureRef} peril '{p.peril}' uses a `separate_model` large-loss " ++
        "treatment, which no scorer applies yet (FR-189, FR-240)"))

def perilCost (A : Arithmetic K) (predicted : ArtifactRef → Except ScoreError K)
    (p : PerilComponent) : Except ScoreError K := match p.method with
  | .frequencySeverity => do
    let frequencyModel ← require p.frequencyModel .assertion
    let severityModel ← require p.severityModel .assertion
    let frequency ← predicted frequencyModel
    let severity ← predicted severityModel
    (A.mul frequency severity).mapError .arithmetic
  | .burningCost => do
    let burningCostModel ← require p.burningCostModel .assertion
    predicted burningCostModel

def restoredCost (A : Arithmetic K) (p : PerilComponent) (cost : K) : Except ScoreError K :=
  match p.largeLoss.kind with
  | .none => .ok cost
  | .capped => do
    let loading ← require p.largeLoss.restorationLoading .assertion
    (A.mul cost (A.loading loading)).mapError .arithmetic
  | .flatLoading => do
    let factor ← require p.largeLoss.loadingFactor .assertion
    (A.mul cost (A.loading factor)).mapError .arithmetic
  | .separateModel => .error (.modelling "LOSS_TREATMENT_UNIMPLEMENTED"
      (s!"peril {p.peril}: the 'separate_model' large-loss treatment is " ++
        "computed by nothing yet (FR-189)"))

/-- One turn of the loop of `_score_peril_structure`. -/
def addPeril (A : Arithmetic K) (predicted : ArtifactRef → Except ScoreError K) (total : K)
    (p : PerilComponent) : Except ScoreError K := do
  let cost ← perilCost A predicted p
  let cost ← restoredCost A p cost
  ensure (¬ cost < 0) (.modelling "PERIL_STRUCTURE_RECONCILIATION_FAILED"
    (s!"peril {p.peril} predicts a negative cost, which summed with positives " ++
      "would disappear (FR-188)"))
  (A.add total cost).mapError .arithmetic

/-- `_score_peril_structure` in some arithmetic: each model is predicted once. -/
def composePremium (A : Arithmetic K) (perils : List PerilComponent)
    (predict : ArtifactRef → Except ScoreError K) : Except ScoreError K := do
  let predicted ← (perilComponentRefs perils).mapM fun ref => (predict ref).map (ref, ·)
  perils.foldlM (addPeril A fun ref => require (predicted.lookup ref) .keyError) 0

/-- `_score_peril_structure` on what `_predict_model` gives for each model. -/
def scorePerilStructure (s : PerilStructure) (predictModel : ArtifactRef → Number) :
    Except ScoreError ℚ :=
  composePremium decimals s.perils fun ref => decimal (predictModel ref) (ArtifactRef.canonical ref)

/-! ## The arrays -/

structure PerilPrediction (K : Type) where
  peril : String
  method : PerilMethod
  frequency : Option (List K)
  severity : Option (List K)
  burningCost : Option (List K)
  largeLoss : LargeLossTreatment

structure RiskPremium (K : Type) where
  columns : List (String × List K)
  riskPremium : List K

def reconciliationFailed (message : String) : ScoreError :=
  .modelling "PERIL_STRUCTURE_RECONCILIATION_FAILED" message

/-- `_cost` -/
def PerilPrediction.cost (p : PerilPrediction K) : Except ScoreError (List K) := match p.method with
  | .frequencySeverity => do
    let frequency ← require p.frequency (reconciliationFailed
      (s!"peril {p.peril}: a frequency_severity peril needs frequency " ++ "predictions (FR-188)"))
    let severity ← require p.severity (reconciliationFailed
      (s!"peril {p.peril}: a frequency_severity peril needs severity " ++
        "predictions. A frequency alone would sum into the premium as a cost " ++
        "three orders of magnitude too small (FR-188)"))
    ensure (frequency.length = severity.length) (reconciliationFailed
      (s!"peril {p.peril}: frequency and severity predict different " ++ "numbers of rows"))
    return List.zipWith (· * ·) frequency severity
  | .burningCost => require p.burningCost (reconciliationFailed
      (s!"peril {p.peril}: a burning_cost peril needs burning cost " ++ "predictions (FR-188)"))

/-- `_restore` -/
def PerilPrediction.restore (p : PerilPrediction K) (cost : List K) : Except ScoreError (List K) :=
  match p.largeLoss.kind with
  | .none => .ok cost
  | .capped => do
    let loading ← require p.largeLoss.restorationLoading .assertion
    return cost.map (· * (loading : K))
  | .flatLoading => do
    let factor ← require p.largeLoss.loadingFactor .assertion
    return cost.map (· * (factor : K))
  | .separateModel => .error (.modelling "LOSS_TREATMENT_UNIMPLEMENTED"
      (s!"peril {p.peril}: the 'separate_model' large-loss treatment is " ++
        "declared by FR-189 and computed by nothing yet — it needs the " ++
        "excess-layer model's own predictions. Reconciling it as though it were " ++
        "'none' would under-state the premium by exactly the excess layer"))

/-- The rows of a column are as many as those of the first. -/
def sameRows (peril : String) (columns : List (String × List K)) (cost : List K) :
    Except ScoreError Unit := match columns with
  | [] => .ok ()
  | (_, first) :: _ => ensure (cost.length = first.length) (reconciliationFailed
      (s!"peril {peril} predicts {cost.length} rows where an earlier " ++
        s!"peril predicts {first.length}. Perils are summed row by row, so a mismatch is " ++
        "a sum over two different books"))

/-- One turn of the loop of `assemble_risk_premium`. -/
def addColumn (columns : List (String × List K)) (p : PerilPrediction K) :
    Except ScoreError (List (String × List K)) := do
  let cost ← p.cost
  let cost ← p.restore cost
  sameRows p.peril columns cost
  ensure (∀ x ∈ cost, ¬ x < 0) (reconciliationFailed
    (s!"peril {p.peril} predicts a negative cost. A negative expected " ++
      "cost is not a risk premium, and summed with positives it disappears"))
  return columns ++ [(s!"peril_{p.peril}", cost)]

def sumColumns (columns : List (List K)) : List K := match columns with
  | [] => []
  | first :: rest => rest.foldl (List.zipWith (· + ·)) first

/-- `assemble_risk_premium` -/
def assembleRiskPremium (predictions : List (PerilPrediction K)) :
    Except ScoreError (RiskPremium K) := do
  ensure (predictions ≠ [])
    (reconciliationFailed "a structure with no perils assembles no risk premium (FR-188)")
  let duplicates := repeated (predictions.map fun p => p.peril)
  ensure (duplicates = []) (reconciliationFailed
    ("peril(s) [" ++ ", ".intercalate (duplicates.map fun code => s!"'{code}'") ++
      "] appear more than once; each peril has one route to its cost (FR-188)"))
  let columns ← predictions.foldlM addColumn []
  return ⟨columns, sumColumns (columns.map Prod.snd)⟩

/-! ## What is stored and predicted -/

/-- A number that `_positional` writes. -/
def Positional (q : ℚ) : Prop := -308 ≤ Int.log 10 |q| ∧ Int.log 10 |q| ≤ 308

instance (q : ℚ) : Decidable (Positional q) := inferInstanceAs (Decidable (_ ∧ _))

/-- A structure is compiled from its stored row, whose numbers were written. -/
def PerilStructure.Stored (s : PerilStructure) : Prop := ∀ p ∈ s.perils,
  (∀ loading ∈ p.largeLoss.restorationLoading, Positional loading) ∧
    ∀ factor ∈ p.largeLoss.loadingFactor, Positional factor

instance (s : PerilStructure) : Decidable s.Stored := inferInstanceAs (Decidable (∀ _ ∈ _, _ ∧ _))

/-- The number that the `repr` of a finite float64 reads as. -/
structure FiniteFloat where
  repr : ℚ
  range : repr = 0 ∨ (10 : ℚ) ^ (-324 : ℤ) ≤ |repr| ∧ |repr| < 10 ^ (309 : ℤ)

/-! ## The purpose -/

def modelled (x : ArtifactRef → K) (ref : Option ArtifactRef) : K := ref.elim 0 x

/-- The number that restores a peril, one without a treatment. -/
def LargeLossTreatment.factor (t : LargeLossTreatment) : ℚ := match t.kind with
  | .capped => t.restorationLoading.getD 1
  | .flatLoading => t.loadingFactor.getD 1
  | _ => 1

/-- The expected cost of a peril: frequency times severity, or burning cost. -/
def expectedCost (x : ArtifactRef → K) (p : PerilComponent) : K := match p.method with
  | .frequencySeverity => modelled x p.frequencyModel * modelled x p.severityModel
  | .burningCost => modelled x p.burningCostModel

def perilPremium (x : ArtifactRef → K) (p : PerilComponent) : K :=
  expectedCost x p * (p.largeLoss.factor : K)

def premium (x : ArtifactRef → K) (perils : List PerilComponent) : K :=
  (perils.map (perilPremium x)).sum

/-- The array of one row for each component model. -/
def oneRow (x : ArtifactRef → K) (p : PerilComponent) : PerilPrediction K where
  peril := p.peril
  method := p.method
  frequency := p.frequencyModel.map fun ref => [x ref]
  severity := p.severityModel.map fun ref => [x ref]
  burningCost := p.burningCostModel.map fun ref => [x ref]
  largeLoss := p.largeLoss

/-! ## Each model is predicted once -/

variable {A : Arithmetic K} {x : ArtifactRef → K} {p : PerilComponent} {perils : List PerilComponent}
  {predict : ArtifactRef → Except ScoreError K} {t : K}

theorem mem_perilComponentRefs {ref : ArtifactRef} (hp : p ∈ perils)
    (h : p.frequencyModel = some ref ∨ p.severityModel = some ref ∨ p.burningCostModel = some ref) :
    ref ∈ perilComponentRefs perils := by
  rw [perilComponentRefs, List.mem_eraseDups, List.mem_flatMap]
  refine ⟨p, hp, List.mem_filterMap.mpr ⟨some ref, ?_, rfl⟩⟩
  simpa [eq_comm] using h

theorem PerilComponent.frequencySeverity (h : p.method = .frequencySeverity) :
    ∃ f s, p.frequencyModel = some f ∧ p.severityModel = some s := by
  have hf : (p.model .frequency).isSome = true := p.isSome_model (by rw [h]; decide)
  have hs : (p.model .severity).isSome = true := p.isSome_model (by rw [h]; decide)
  obtain ⟨f, hf⟩ := Option.isSome_iff_exists.mp hf
  obtain ⟨s, hs⟩ := Option.isSome_iff_exists.mp hs
  exact ⟨f, s, hf, hs⟩

theorem PerilComponent.burningCost (h : p.method = .burningCost) :
    ∃ b, p.burningCostModel = some b := by
  have hb : (p.model .burningCost).isSome = true := p.isSome_model (by rw [h]; decide)
  exact Option.isSome_iff_exists.mp hb

omit [Field K] [LinearOrder K] in
theorem lookup_map_self {l : List ArtifactRef} {ref : ArtifactRef} (h : ref ∈ l) :
    (l.map fun r => (r, x r)).lookup ref = some (x ref) := by
  induction l with
  | nil => cases h
  | cons r l ih =>
    rw [List.map_cons, List.lookup_cons]
    by_cases hr : ref = r
    · subst hr
      simp
    · rw [beq_false_of_ne hr]
      exact ih ((List.mem_cons.mp h).resolve_left hr)

omit [LinearOrder K] in
theorem perilCost_eq {predicted : ArtifactRef → Except ScoreError K}
    (h : ∀ ref, p.frequencyModel = some ref ∨ p.severityModel = some ref ∨
      p.burningCostModel = some ref → predicted ref = .ok (x ref)) :
    perilCost A predicted p = match p.method with
      | .frequencySeverity => (A.mul (modelled x p.frequencyModel)
          (modelled x p.severityModel)).mapError .arithmetic
      | .burningCost => .ok (modelled x p.burningCostModel) := by
  cases hm : p.method with
  | frequencySeverity =>
    obtain ⟨f, s, hf, hs⟩ := PerilComponent.frequencySeverity hm
    simp only [perilCost, hm, hf, hs, require, Option.elim_some, bind, Except.bind,
      h f (Or.inl hf), h s (Or.inr (Or.inl hs)), modelled]
  | burningCost =>
    obtain ⟨b, hb⟩ := PerilComponent.burningCost hm
    simp only [perilCost, hm, hb, require, Option.elim_some, bind, Except.bind,
      h b (Or.inr (Or.inr hb)), modelled]

theorem composePremium_eq (h : ∀ ref, predict ref = .ok (x ref)) :
    composePremium A perils predict = perils.foldlM (addPeril A fun ref => .ok (x ref)) 0 := by
  have hall : (perilComponentRefs perils).mapM (fun ref => (predict ref).map (ref, ·)) =
      .ok ((perilComponentRefs perils).map fun ref => (ref, x ref)) := by
    rw [mapM_eq_ok, List.forall₂_map_right_iff, List.forall₂_same]
    intro ref _
    rw [h]
    rfl
  have hlookup : ∀ p ∈ perils, ∀ ref, p.frequencyModel = some ref ∨ p.severityModel = some ref ∨
      p.burningCostModel = some ref →
      require (((perilComponentRefs perils).map fun ref => (ref, x ref)).lookup ref)
        ScoreError.keyError = .ok (x ref) := by
    intro p hp ref href
    rw [lookup_map_self (mem_perilComponentRefs hp href)]
    rfl
  rw [composePremium, hall]
  refine foldlM_same fun p hp t => ?_
  rw [addPeril, addPeril, perilCost_eq (hlookup p hp), perilCost_eq fun _ _ => rfl]

/-! ## One peril -/

theorem LargeLossTreatment.loading_of_capped {t : LargeLossTreatment} (h : t.kind = .capped) :
    t.restorationLoading = some t.factor := by
  have hset := (t.isSet_iff (p := .restorationLoading) (by decide)).mpr (by rw [h]; decide)
  obtain ⟨loading, hl⟩ := Option.isSome_iff_exists.mp hset
  rw [LargeLossTreatment.factor, h, hl]
  rfl

theorem LargeLossTreatment.factor_of_flat {t : LargeLossTreatment} (h : t.kind = .flatLoading) :
    t.loadingFactor = some t.factor := by
  have hset := (t.isSet_iff (p := .loadingFactor) (by decide)).mpr (by rw [h]; decide)
  obtain ⟨factor, hf⟩ := Option.isSome_iff_exists.mp hset
  rw [LargeLossTreatment.factor, h, hf]
  rfl

theorem LargeLossTreatment.factor_of_none {t : LargeLossTreatment} (h : t.kind = .none) :
    t.factor = 1 := by
  rw [LargeLossTreatment.factor, h]

omit [Field K] [LinearOrder K] in
theorem restoredCost_eq (h : p.largeLoss.kind ≠ .separateModel) (c : K) :
    restoredCost A p c = if p.largeLoss.kind = .none then .ok c
      else (A.mul c (A.loading p.largeLoss.factor)).mapError .arithmetic := by
  cases hk : p.largeLoss.kind with
  | none => simp [restoredCost, hk]
  | capped =>
    simp [restoredCost, hk, LargeLossTreatment.loading_of_capped hk, require, bind, Except.bind]
  | flatLoading =>
    simp [restoredCost, hk, LargeLossTreatment.factor_of_flat hk, require, bind, Except.bind]
  | separateModel => exact absurd hk h

/-- What a negative cost raises. -/
def negativeCost (p : PerilComponent) : ScoreError :=
  .modelling "PERIL_STRUCTURE_RECONCILIATION_FAILED"
    (s!"peril {p.peril} predicts a negative cost, which summed with positives " ++
      "would disappear (FR-188)")

theorem addPeril_exactly (h : p.largeLoss.kind ≠ .separateModel) :
    addPeril (exactly K) (fun ref => .ok (x ref)) t p =
      (do ensure (¬ perilPremium x p < 0) (negativeCost p); .ok (t + perilPremium x p)) := by
  have hcost : perilCost (exactly K) (fun ref => .ok (x ref)) p = .ok (expectedCost x p) := by
    rw [perilCost_eq fun _ _ => rfl, expectedCost]
    cases p.method <;> rfl
  have hrestored : restoredCost (exactly K) p (expectedCost x p) = .ok (perilPremium x p) := by
    rw [restoredCost_eq h, perilPremium]
    split_ifs with hk
    · rw [LargeLossTreatment.factor_of_none hk, Rat.cast_one, mul_one]
    · rfl
  rw [addPeril, hcost]
  simp only [bind, Except.bind, hrestored]
  rfl

end GiPricing.Perils
