import GiPricing.Score.Positional
import GiPricing.Score.Quote

/-! # The case log

The cases a run generates and its counterexamples, as they are stored and as they are read back:
a stored case has its inputs sorted by name and a decimal written as a text.
-/

namespace GiPricing

open Decimal

/-! ## Cases -/

/-- A value a strategy draws: a decimal is drawn with two places. -/
inductive DrawnValue
  | null
  | bool (b : Bool)
  | int (n : ℤ)
  | cents (n : ℤ)
  | text (s : String)
  deriving DecidableEq, Repr

def DrawnValue.value : DrawnValue → Value
  | null => .null
  | bool b => .bool b
  | int n => .int n
  | cents n => .decimal (.finite ((n : ℚ) / 10 ^ 2))
  | text s => .text s

/-- What `_field_strategy` draws for a field: of the type of the field, and within its domain;
the bounds of a number only narrow it. -/
inductive InputContractField.Draws (f : InputContractField) : DrawnValue → Prop
  | null : f.nullable = true → f.Draws .null
  | bool (b : Bool) : f.type = .bool → f.Draws (.bool b)
  | int (n : ℤ) : f.type = .int → f.Draws (.int n)
  | decimal (n : ℤ) : f.type = .decimal → f.Draws (.cents n)
  | enum (s : String) : f.type = .enum → (∃ domain ∈ f.domain, s ∈ domain) → f.Draws (.text s)
  | date (d : Date) : f.type = .date → f.Draws (.text d.isoformat)
  | string (s : String) : f.type = .string → f.Draws (.text s)

/-- A generated case: one value for each input of the contract, drawn by a field of that name. -/
structure Case (contract : List InputContractField) where
  inputs : Dict DrawnValue
  drawn : ∀ e ∈ inputs.entries, ∃ f ∈ contract, f.name = e.1 ∧ f.Draws e.2

def generatedDate : Date := ⟨2026, 1, 1, by omega, by omega, by decide⟩

/-- `_context`: every generated case is new business at one fixed date. -/
def generatedContext (inputs : Dict Value) : QuoteContext where
  purpose := .newBusiness
  effectiveDate := generatedDate
  inputs := inputs

def Case.context {contract : List InputContractField} (c : Case contract) : QuoteContext :=
  generatedContext (c.inputs.mapValues DrawnValue.value)

/-! ## The store -/

inductive StoredValue
  | null
  | bool (b : Bool)
  | number (n : ℤ)
  | string (s : String)
  deriving DecidableEq, Repr

def DrawnValue.dump : DrawnValue → StoredValue
  | null => .null
  | bool b => .bool b
  | int n => .number n
  | cents n => .string (fixedText n 2)
  | text s => .string s

/-- A value read back: nothing says that a text was a decimal. -/
def StoredValue.load : StoredValue → Value
  | null => .null
  | bool b => .bool b
  | number n => .int n
  | string s => .text s

structure StoredCase where
  purpose : String
  effectiveDate : String
  inputs : List (String × StoredValue)
  deriving DecidableEq

def sortedEntries {α : Type} (entries : List (String × α)) : List (String × α) :=
  entries.insertionSort fun a b => a.1 ≤ b.1

def Case.store {contract : List InputContractField} (c : Case contract) : StoredCase where
  purpose := QuotePurpose.newBusiness.text
  effectiveDate := generatedDate.isoformat
  inputs := sortedEntries (c.inputs.mapValues DrawnValue.dump).entries

def QuotePurpose.ofText? (s : String) : Option QuotePurpose :=
  [newBusiness, renewal, midTermAdjustment, cancellation, whatIf].find? fun p => p.text = s

def Dict.ofEntries? {α : Type} (entries : List (String × α)) : Option (Dict α) :=
  if h : (entries.map Prod.fst).Nodup then some ⟨entries, h⟩ else none

/-- `QuoteContext.model_validate` of a stored case. -/
def StoredCase.load (s : StoredCase) : Option QuoteContext := do
  let purpose ← QuotePurpose.ofText? s.purpose
  let effectiveDate ← Date.ofIso? s.effectiveDate
  let inputs ← Dict.ofEntries? s.inputs
  return { purpose, effectiveDate, inputs := inputs.mapValues StoredValue.load }

theorem sortedEntries_perm {α : Type} (entries : List (String × α)) :
    (sortedEntries entries).Perm entries := List.perm_insertionSort _ _

theorem Dict.get?_perm {α : Type} {d e : Dict α} (h : d.entries.Perm e.entries) (k : String) :
    d.get? k = e.get? k := by
  apply Option.ext
  intro v
  rw [get?_eq_some, get?_eq_some, h.mem_iff]

theorem Dict.get?_mapValues {α β : Type} (d : Dict α) (f : α → β) (k : String) :
    (d.mapValues f).get? k = (d.get? k).map f := by
  apply Option.ext
  intro v
  simp only [get?_eq_some, Option.map_eq_some_iff, mapValues, List.mem_map, Prod.mk.injEq]
  constructor
  · rintro ⟨⟨k', a⟩, hm, rfl, rfl⟩
    exact ⟨a, hm, rfl⟩
  · rintro ⟨a, hm, rfl⟩
    exact ⟨(k, a), hm, rfl, rfl⟩

theorem Case.load_store {contract : List InputContractField} (c : Case contract) :
    ∃ inputs : Dict Value, c.store.load = some (generatedContext inputs) ∧
      ∀ k, inputs.get? k = (c.inputs.get? k).map fun v => v.dump.load := by
  have hperm := sortedEntries_perm (c.inputs.mapValues DrawnValue.dump).entries
  have hnodup : (c.store.inputs.map Prod.fst).Nodup :=
    (hperm.map Prod.fst).nodup_iff.mpr (c.inputs.mapValues DrawnValue.dump).nodup
  refine ⟨Dict.mapValues ⟨c.store.inputs, hnodup⟩ StoredValue.load, ?_, ?_⟩
  · have hp : QuotePurpose.ofText? c.store.purpose = some .newBusiness := by
      change QuotePurpose.ofText? QuotePurpose.newBusiness.text = _
      decide
    have hd : Date.ofIso? c.store.effectiveDate = some generatedDate := by
      change Date.ofIso? generatedDate.isoformat = _
      decide
    rw [StoredCase.load, hp, hd, Dict.ofEntries?, dif_pos hnodup]
    rfl
  · intro k
    rw [Dict.get?_mapValues, Dict.get?_perm (e := c.inputs.mapValues DrawnValue.dump) hperm,
      Dict.get?_mapValues, Option.map_map]
    rfl

/-! ## Coercion -/

/-- A text of a decimal input becomes the decimal it writes. -/
def coerceField (inputs : Dict Value) (f : InputContractField) : Except Raised (Dict Value) :=
  match f.type, inputs.get? f.name with
  | .decimal, some (.text s) => match parse s with
    | some n => .ok (inputs.insert f.name (.decimal n))
    | none => .error .arithmetic
  | _, _ => .ok inputs

def coerceInputs (contract : List InputContractField) (context : QuoteContext) :
    Except Raised QuoteContext :=
  (contract.foldlM coerceField context.inputs).map fun inputs => { context with inputs }

/-- The second inputs are the first, but for texts that decimal fields read as the decimals of
the first. -/
def ReadAs (fields : List InputContractField) (a b : Dict Value) : Prop :=
  ∀ k, a.get? k = b.get? k ∨ ∃ f ∈ fields, f.type = .decimal ∧ f.name = k ∧
    ∃ s n, a.get? k = some (.decimal n) ∧ b.get? k = some (.text s) ∧ parse s = some n

theorem coerceField_eq_self {inputs : Dict Value} {f : InputContractField}
    (h : ∀ s, f.type = .decimal → inputs.get? f.name ≠ some (.text s)) :
    coerceField inputs f = .ok inputs := by
  unfold coerceField
  split
  · rename_i s ht hs
    exact absurd hs (h s ht)
  · rfl

theorem coerceField_text {inputs : Dict Value} {f : InputContractField} {s : String}
    (ht : f.type = .decimal) (hs : inputs.get? f.name = some (.text s)) :
    coerceField inputs f = match parse s with
      | some n => .ok (inputs.insert f.name (.decimal n))
      | none => .error .arithmetic := by
  unfold coerceField
  rw [ht, hs]

theorem ReadAs.insert {fields : List InputContractField} {a b : Dict Value}
    (h : ReadAs fields a b) (k : String) (v : Value) :
    ReadAs fields (a.insert k v) (b.insert k v) := by
  intro k'
  rw [Dict.get?_insert, Dict.get?_insert]
  by_cases hk : k' = k
  · exact Or.inl (by simp [hk])
  · simpa [hk] using h k'

/-- One field: both are refused alike, or what is left to read is left to the other fields. -/
theorem ReadAs.step {f : InputContractField} {fields : List InputContractField} {a b : Dict Value}
    (h : ReadAs (f :: fields) a b) :
    (∃ e, coerceField a f = .error e ∧ coerceField b f = .error e) ∨
      ∃ a' b', coerceField a f = .ok a' ∧ coerceField b f = .ok b' ∧ ReadAs fields a' b' := by
  -- an entry another field reads is still read by that field
  have hrest : ∀ k, (f.type = .decimal → k ≠ f.name) → a.get? k = b.get? k ∨
      ∃ g ∈ fields, g.type = .decimal ∧ g.name = k ∧
        ∃ s n, a.get? k = some (.decimal n) ∧ b.get? k = some (.text s) ∧ parse s = some n := by
    intro k hk
    rcases h k with heq | ⟨g, hg, ht, rfl, hv⟩
    · exact Or.inl heq
    · rcases List.mem_cons.mp hg with rfl | hg
      · exact absurd rfl (hk ht)
      · exact Or.inr ⟨g, hg, ht, rfl, hv⟩
  by_cases ht : f.type = .decimal
  · rcases h f.name with heq | ⟨-, -, -, -, s, n, ha, hb, hp⟩
    · by_cases hs : ∃ s, a.get? f.name = some (.text s)
      · obtain ⟨s, hs⟩ := hs
        rw [coerceField_text ht hs, coerceField_text ht (heq ▸ hs)]
        cases parse s with
        | none => exact Or.inl ⟨_, rfl, rfl⟩
        | some n =>
          refine Or.inr ⟨_, _, rfl, rfl, fun k => ?_⟩
          rw [Dict.get?_insert, Dict.get?_insert]
          by_cases hk : k = f.name
          · exact Or.inl (by simp [hk])
          · simpa [hk] using hrest k fun _ => hk
      · have hs' : ∀ s, f.type = .decimal → a.get? f.name ≠ some (.text s) :=
          fun s _ hv => hs ⟨s, hv⟩
        refine Or.inr ⟨a, b, coerceField_eq_self hs', coerceField_eq_self (heq ▸ hs'), fun k => ?_⟩
        by_cases hk : k = f.name
        · exact Or.inl (hk ▸ heq)
        · exact hrest k fun _ => hk
    · have ha' : coerceField a f = .ok a :=
        coerceField_eq_self fun s _ hv => by rw [ha] at hv; cases hv
      have hb' : coerceField b f = .ok (b.insert f.name (.decimal n)) := by
        rw [coerceField_text ht hb, hp]
      refine Or.inr ⟨a, _, ha', hb', fun k => ?_⟩
      rw [Dict.get?_insert]
      by_cases hk : k = f.name
      · exact Or.inl (by simp [hk, ha])
      · simpa [hk] using hrest k fun _ => hk
  · exact Or.inr ⟨a, b, coerceField_eq_self fun _ h' => absurd h' ht,
      coerceField_eq_self fun _ h' => absurd h' ht, fun k => hrest k fun h' => absurd h' ht⟩

theorem ReadAs.coerce {fields : List InputContractField} {a b : Dict Value}
    (h : ReadAs fields a b) :
    (∃ e, fields.foldlM coerceField a = .error e ∧ fields.foldlM coerceField b = .error e) ∨
      ∃ a' b', fields.foldlM coerceField a = .ok a' ∧ fields.foldlM coerceField b = .ok b' ∧
        ∀ k, a'.get? k = b'.get? k := by
  induction fields generalizing a b with
  | nil =>
    refine Or.inr ⟨a, b, rfl, rfl, fun k => ?_⟩
    rcases h k with heq | ⟨f, hf, -⟩
    · exact heq
    · cases hf
  | cons f fields ih =>
    simp only [List.foldlM_cons]
    rcases h.step with ⟨e, ha, hb⟩ | ⟨a', b', ha, hb, h'⟩
    · exact Or.inl ⟨e, by rw [ha]; rfl, by rw [hb]; rfl⟩
    · rw [ha, hb]
      exact ih h'

theorem Case.readAs {contract : List InputContractField} (c : Case contract) {inputs : Dict Value}
    (h : ∀ k, inputs.get? k = (c.inputs.get? k).map fun v => v.dump.load) :
    ReadAs contract c.context.inputs inputs := by
  intro k
  have hc : c.context.inputs.get? k = (c.inputs.get? k).map DrawnValue.value :=
    Dict.get?_mapValues _ _ _
  rw [hc, h k]
  cases hv : c.inputs.get? k with
  | none => exact Or.inl rfl
  | some v =>
    cases v with
    | cents n =>
      obtain ⟨f, hf, hname, hdraws⟩ := c.drawn _ ((Dict.get?_eq_some _).mp hv)
      have ht : f.type = .decimal := by cases hdraws; assumption
      exact Or.inr ⟨f, hf, ht, hname, fixedText n 2, _, rfl, rfl, parse_fixedText n 2⟩
    | null => exact Or.inl rfl
    | bool b => exact Or.inl rfl
    | int n => exact Or.inl rfl
    | text s => exact Or.inl rfl

end GiPricing
