import GiPricing.Failure.Except
import GiPricing.Money.Arithmetic
import GiPricing.Rating.Inline
import Mathlib

/-! # Peril Structures

A structure names, for each peril, the models of its cost and the treatment of its large losses. Its
premium is composed twice: for one quote, in the decimal arithmetic of the rating path, and over
arrays of predictions, one row per risk.
-/

namespace GiPricing.Perils

open Decimal Failure

/-! ## The contract -/

inductive PerilMethod
  | frequencySeverity
  | burningCost
  deriving DecidableEq

inductive LargeLossKind
  | none
  | capped
  | separateModel
  | flatLoading
  deriving DecidableEq

inductive PerilStructureStatus
  | draft
  | reconciled
  | review
  | approved
  | superseded
  | archived
  deriving DecidableEq

/-- What the contract refuses. -/
inductive ContractError
  | parameterUnset
  | parameterNotRead
  | restorationBelowOne
  | loadingNotPositive
  | modelUnset (peril : String)
  | modelNotUsed (peril : String)
  | notAModel (peril : String)
  | appearMoreThanOnce (perils : List String)
  | excludedTwice (perils : List String)
  | modelledAndExcluded (perils : List String)
  | notReconciled
  deriving DecidableEq

inductive Parameter
  | capMinor
  | restorationLoading
  | excessModel
  | attachmentMinor
  | loadingFactor
  | evidenceBlob
  deriving DecidableEq

def parameters : List Parameter :=
  [.capMinor, .restorationLoading, .excessModel, .attachmentMinor, .loadingFactor, .evidenceBlob]

def LargeLossKind.required : LargeLossKind → List Parameter
  | .none => []
  | .capped => [.capMinor, .restorationLoading, .evidenceBlob]
  | .separateModel => [.excessModel, .attachmentMinor, .evidenceBlob]
  | .flatLoading => [.loadingFactor, .evidenceBlob]

structure LargeLossFields where
  kind : LargeLossKind
  capMinor : Option ℤ
  restorationLoading : Option ℚ
  excessModel : Option ArtifactRef
  attachmentMinor : Option ℤ
  loadingFactor : Option ℚ
  evidenceBlob : Option String

namespace LargeLossFields

variable (t : LargeLossFields)

def isSet : Parameter → Bool
  | .capMinor => t.capMinor.isSome
  | .restorationLoading => t.restorationLoading.isSome
  | .excessModel => t.excessModel.isSome
  | .attachmentMinor => t.attachmentMinor.isSome
  | .loadingFactor => t.loadingFactor.isSome
  | .evidenceBlob => t.evidenceBlob.isSome

def fieldsMatchTheKind : Except ContractError Unit := do
  ensure (∀ p ∈ t.kind.required, t.isSet p = true) .parameterUnset
  ensure (∀ p ∈ parameters, p ∉ t.kind.required → ¬ t.isSet p) .parameterNotRead
  ensure (∀ loading ∈ t.restorationLoading, ¬ loading < 1) .restorationBelowOne
  ensure (∀ factor ∈ t.loadingFactor, ¬ factor ≤ 0) .loadingNotPositive

end LargeLossFields

structure LargeLossTreatment extends LargeLossFields where
  valid : toLargeLossFields.fieldsMatchTheKind = .ok ⟨⟩

/-- `^[A-Z][A-Z0-9_]{0,31}$` -/
def isPerilCode (code : List Char) : Bool := match code with
  | [] => false
  | c :: cs => c.isUpper && cs.length ≤ 31 && cs.all fun c => c.isUpper || c.isDigit || c = '_'

inductive Role
  | frequency
  | severity
  | burningCost
  deriving DecidableEq

def PerilMethod.required : PerilMethod → List Role
  | .frequencySeverity => [.frequency, .severity]
  | .burningCost => [.burningCost]

structure PerilFields where
  peril : String
  method : PerilMethod
  frequencyModel : Option ArtifactRef
  severityModel : Option ArtifactRef
  burningCostModel : Option ArtifactRef
  largeLoss : LargeLossTreatment

namespace PerilFields

variable (p : PerilFields)

def model : Role → Option ArtifactRef
  | .frequency => p.frequencyModel
  | .severity => p.severityModel
  | .burningCost => p.burningCostModel

def modelsMatchTheMethod : Except ContractError Unit := do
  ensure (∀ role ∈ p.method.required, (p.model role).isSome) (.modelUnset p.peril)
  ensure (∀ role ∈ [Role.frequency, .severity, .burningCost], role ∉ p.method.required →
    p.model role = none) (.modelNotUsed p.peril)
  ensure (∀ role ∈ p.method.required, ∀ ref ∈ p.model role, ref.type = "model")
    (.notAModel p.peril)

end PerilFields

structure PerilComponent extends PerilFields where
  code : isPerilCode peril.toList = true
  valid : toPerilFields.modelsMatchTheMethod = .ok ⟨⟩

/-- What a structure holds, its reconciliation by whether there is one. -/
structure StructureFields where
  perils : List PerilComponent
  excludedPerils : List String
  hasReconciliation : Bool
  status : PerilStructureStatus

def repeated (codes : List String) : List String :=
  sortedSet (codes.filter fun code => 1 < codes.count code)

namespace StructureFields

variable (s : StructureFields)

def modelled : List String := s.perils.map fun p => p.peril

def coherent : Except ContractError Unit := do
  ensure (repeated s.modelled = []) (.appearMoreThanOnce (repeated s.modelled))
  ensure (repeated s.excludedPerils = []) (.excludedTwice (repeated s.excludedPerils))
  let both := sortedSet (s.modelled.filter (· ∈ s.excludedPerils))
  ensure (both = []) (.modelledAndExcluded both)
  ensure (s.status ∈ [.reconciled, .review, .approved] → s.hasReconciliation) .notReconciled

end StructureFields

structure PerilStructure extends StructureFields where
  nonempty : perils ≠ []
  valid : toStructureFields.coherent = .ok ⟨⟩

/-! ## What the contract gives -/

theorem LargeLossTreatment.isSet_iff (t : LargeLossTreatment) {p : Parameter} (hp : p ∈ parameters) :
    t.isSet p = true ↔ p ∈ t.kind.required := by
  obtain ⟨hset, hunread, -⟩ : (∀ p ∈ t.kind.required, t.isSet p = true) ∧
      (∀ p ∈ parameters, p ∉ t.kind.required → ¬ t.isSet p = true) ∧ True := by
    have := t.valid
    simp only [LargeLossFields.fieldsMatchTheKind, ensure_bind_eq_ok] at this
    exact ⟨this.1, this.2.1, trivial⟩
  exact ⟨fun h => by_contra fun hn => hunread p hp hn h, hset p⟩

theorem LargeLossTreatment.pos (t : LargeLossTreatment) :
    (∀ loading ∈ t.restorationLoading, 1 ≤ loading) ∧ ∀ factor ∈ t.loadingFactor, 0 < factor := by
  have := t.valid
  simp only [LargeLossFields.fieldsMatchTheKind, ensure_bind_eq_ok, ensure_eq_ok, not_lt, not_le]
    at this
  exact ⟨this.2.2.1, this.2.2.2⟩

theorem PerilComponent.isSome_model (p : PerilComponent) {role : Role}
    (h : role ∈ p.method.required) : (p.model role).isSome = true := by
  have := p.valid
  simp only [PerilFields.modelsMatchTheMethod, ensure_bind_eq_ok] at this
  exact this.1 role h

theorem PerilStructure.nodup_modelled (s : PerilStructure) : s.modelled.Nodup := by
  have hvalid := s.valid
  simp only [StructureFields.coherent, ensure_bind_eq_ok] at hvalid
  have hnone : ∀ code ∈ s.modelled, ¬ 1 < s.modelled.count code := by
    intro code hcode hcount
    have hmem : code ∈ repeated s.modelled := by
      rw [repeated, sortedSet, List.mem_insertionSort, List.mem_dedup, List.mem_filter]
      exact ⟨hcode, by simpa using hcount⟩
    rw [hvalid.1] at hmem
    cases hmem
  rw [List.nodup_iff_count_le_one]
  intro code
  by_cases hcode : code ∈ s.modelled
  · exact not_lt.mp (hnone code hcode)
  · rw [List.count_eq_zero_of_not_mem hcode]
    exact Nat.zero_le 1

def codeNumber (code : String) : ℕ := Nat.ofDigits 128 (code.toList.map Char.toNat)

theorem toNat_of_code {c : Char} (h : (c.isUpper || c.isDigit || c = '_') = true) :
    0 < c.toNat ∧ c.toNat < 128 := by
  simp only [Char.isUpper, Char.isDigit, Bool.or_eq_true, Bool.and_eq_true, decide_eq_true_eq,
    ge_iff_le, UInt32.le_iff_toNat_le] at h
  rcases h with (⟨h1, h2⟩ | ⟨h1, h2⟩) | rfl
  · exact ⟨lt_of_lt_of_le (by decide) h1, lt_of_le_of_lt h2 (by decide)⟩
  · exact ⟨lt_of_lt_of_le (by decide) h1, lt_of_le_of_lt h2 (by decide)⟩
  · decide

theorem isPerilCode_iff {code : List Char} (h : isPerilCode code = true) :
    code.length ≤ 32 ∧ ∀ c ∈ code, (c.isUpper || c.isDigit || c = '_') = true := by
  cases code with
  | nil => cases h
  | cons c cs =>
    simp only [isPerilCode, Bool.and_eq_true, decide_eq_true_eq, List.all_eq_true] at h
    obtain ⟨⟨hc, hlength⟩, hcs⟩ := h
    refine ⟨by rw [List.length_cons]; omega, List.forall_mem_cons.mpr ⟨?_, hcs⟩⟩
    rw [hc]
    rfl

theorem codeNumber_lt {code : String} (h : isPerilCode code.toList = true) :
    codeNumber code < 128 ^ 32 := by
  obtain ⟨hlength, hchars⟩ := isPerilCode_iff h
  calc codeNumber code < 128 ^ (code.toList.map Char.toNat).length := by
        apply Nat.ofDigits_lt_base_pow_length (by norm_num)
        simp only [List.mem_map, forall_exists_index, and_imp, forall_apply_eq_imp_iff₂]
        exact fun c hc => (toNat_of_code (hchars c hc)).2
    _ ≤ 128 ^ 32 := Nat.pow_le_pow_right (by norm_num) (by simpa using hlength)

theorem codeNumber_inj {code code' : String} (h : isPerilCode code.toList = true)
    (h' : isPerilCode code'.toList = true) (heq : codeNumber code = codeNumber code') :
    code = code' := by
  have hdigits : ∀ c : String, isPerilCode c.toList = true →
      Nat.digits 128 (codeNumber c) = c.toList.map Char.toNat := by
    intro c hc
    obtain ⟨-, hchars⟩ := isPerilCode_iff hc
    apply Nat.digits_ofDigits 128 (by norm_num)
    · simp only [List.mem_map, forall_exists_index, and_imp, forall_apply_eq_imp_iff₂]
      exact fun c hc => (toNat_of_code (hchars c hc)).2
    · intro hne hzero
      obtain ⟨d, hd, hd0⟩ := List.mem_map.mp (List.getLast_mem hne)
      have := (toNat_of_code (hchars d hd)).1
      omega
  have hmap : code.toList.map Char.toNat = code'.toList.map Char.toNat := by
    rw [← hdigits code h, ← hdigits code' h', heq]
  exact String.toList_inj.mp (List.map_injective_iff.mpr (fun _ _ => Char.toNat_inj.mp) hmap)

theorem PerilStructure.length_perils_le (s : PerilStructure) : s.perils.length ≤ 128 ^ 32 := by
  have hcode : ∀ code ∈ s.modelled, isPerilCode code.toList = true := by
    intro code hmem
    obtain ⟨p, -, rfl⟩ := List.mem_map.mp hmem
    exact p.code
  have hnodup : (s.modelled.map codeNumber).Nodup :=
    s.nodup_modelled.map_on fun a ha b hb => codeNumber_inj (hcode a ha) (hcode b hb)
  have hsub : (s.modelled.map codeNumber).toFinset ⊆ Finset.range (128 ^ 32) := by
    intro n hn
    obtain ⟨code, hmem, rfl⟩ := List.mem_map.mp (List.mem_toFinset.mp hn)
    exact Finset.mem_range.mpr (codeNumber_lt (hcode code hmem))
  have hcard := Finset.card_le_card hsub
  rw [List.toFinset_card_of_nodup hnodup, Finset.card_range, List.length_map,
    StructureFields.modelled, List.length_map] at hcard
  exact hcard

end GiPricing.Perils
