import GiPricing.Regression.Properties

/-! # The sweep of a monotone property

The grid of a sweep goes up from the lowest point of the range to the highest. A sweep holds where
every point is scored and every two quoted points are in order, however far apart they are.
-/

namespace GiPricing

open Failure Decimal

/-! ## The grid -/

/-- The values of an input: whole numbers, or numbers of two places. -/
def InputContractField.point (f : InputContractField) (z : ℤ) : ℚ :=
  if f.type = .int then z else z / 100

def InputContractField.pointValue (f : InputContractField) (z : ℤ) : Value :=
  if f.type = .int then .int z else .decimal (.finite (z / 100))

/-- Points that go up through a range, from its lowest to its highest. -/
structure Spans (f : InputContractField) (low high : ℚ) (points : List ℤ) : Prop where
  increasing : (points.map f.point).Pairwise (· < ·)
  within : ∀ z ∈ points, low ≤ f.point z ∧ f.point z ≤ high
  least : ∃ z ∈ points, IsLeast {y | low ≤ f.point y ∧ f.point y ≤ high} z
  greatest : ∃ z ∈ points, IsGreatest {y | low ≤ f.point y ∧ f.point y ≤ high} z

/-- A generator answers within the bounds it is given. -/
def Randint (randints : String → ℤ → ℤ → List ℤ) : Prop :=
  ∀ source a b, a ≤ b → ∀ x ∈ randints source a b, a ≤ x ∧ x ≤ b

section Grid

variable {f : InputContractField} {check : MonotoneInInput} {low high : ℚ} {lo hi y z : ℤ}
  {width x : ℤ}

theorem point_lt_point : f.point y < f.point z ↔ y < z := by
  rw [InputContractField.point, InputContractField.point]
  split_ifs
  · exact Int.cast_lt
  · rw [div_lt_div_iff_of_pos_right (by norm_num), Int.cast_lt]

theorem mem_uniformOffsets :
    x ∈ uniformOffsets width ↔ ∃ i : ℕ, i < gridPoints ∧ width * i / (gridPoints - 1) = x := by
  simp [uniformOffsets]

theorem uniformOffsets_within (hw : 0 ≤ width) (hx : x ∈ uniformOffsets width) :
    0 ≤ x ∧ x ≤ width := by
  obtain ⟨i, hi, rfl⟩ := mem_uniformOffsets.mp hx
  rw [gridPoints] at hi
  have hi' : (i : ℤ) ≤ 4 := by omega
  have hprod : width * i ≤ width * 4 := mul_le_mul_of_nonneg_left hi' hw
  have hnonneg : 0 ≤ width * i := mul_nonneg hw (Int.natCast_nonneg i)
  simp only [gridPoints]
  omega

theorem zero_mem_uniformOffsets : (0 : ℤ) ∈ uniformOffsets width :=
  mem_uniformOffsets.mpr ⟨0, by decide, by simp⟩

theorem width_mem_uniformOffsets : width ∈ uniformOffsets width := by
  apply mem_uniformOffsets.mpr
  refine ⟨4, by decide, ?_⟩
  simp only [gridPoints]
  omega

/-- The lowest and the highest point that a range holds. -/
structure IsRange (f : InputContractField) (low high : ℚ) (lo hi : ℤ) : Prop where
  le : lo ≤ hi
  low_le : ∀ z, low ≤ f.point z ↔ lo ≤ z
  le_high : ∀ z, f.point z ≤ high ↔ z ≤ hi

theorem isRange_of_sweptRange (h : sweptRange f check = .ok (lo, hi)) :
    ∃ low high, sweepBounds f check = some (low, high) ∧ IsRange f low high lo hi ∧
      (f.type ≠ .int → |lo| < 10 ^ defaultPrec ∧ |hi| < 10 ^ defaultPrec) := by
  rw [sweptRange] at h
  cases hb : sweepBounds f check with
  | none =>
    rw [hb] at h
    cases h
  | some bounds =>
    obtain ⟨low, high⟩ := bounds
    rw [hb] at h
    simp only at h
    refine ⟨low, high, rfl, ?_⟩
    split_ifs at h with hint hempty harith hempty'
    · obtain ⟨rfl, rfl⟩ := Prod.mk.inj (Except.ok.inj h)
      refine ⟨⟨not_lt.mp hempty, fun z => ?_, fun z => ?_⟩, fun hne => absurd hint hne⟩
      · rw [InputContractField.point, if_pos hint, Int.ceil_le]
      · rw [InputContractField.point, if_pos hint, Int.le_floor]
    · obtain ⟨rfl, rfl⟩ := Prod.mk.inj (Except.ok.inj h)
      rw [not_or, not_le, not_le] at harith
      refine ⟨⟨not_lt.mp hempty', fun z => ?_, fun z => ?_⟩, fun _ => harith⟩
      · rw [InputContractField.point, if_neg hint, Int.ceil_le, le_div_iff₀ (by norm_num)]
      · rw [InputContractField.point, if_neg hint, Int.le_floor, div_le_iff₀ (by norm_num)]

/-- Sorted points of a range with both ends among them. -/
theorem IsRange.spans (h : IsRange f low high lo hi) {points : List ℤ}
    (hsorted : points.Pairwise (· < ·)) (hmem : ∀ z ∈ points, lo ≤ z ∧ z ≤ hi) (hlo : lo ∈ points)
    (hhi : hi ∈ points) : Spans f low high points where
  increasing := List.pairwise_map.mpr (hsorted.imp point_lt_point.mpr)
  within := by
    intro z hz
    rw [h.low_le, h.le_high]
    exact hmem z hz
  least := by
    refine ⟨lo, hlo, ⟨(h.low_le lo).mpr le_rfl, (h.le_high lo).mpr h.le⟩, ?_⟩
    intro y hy
    exact (h.low_le y).mp hy.1
  greatest := by
    refine ⟨hi, hhi, ⟨(h.low_le hi).mpr h.le, (h.le_high hi).mpr le_rfl⟩, ?_⟩
    intro y hy
    exact (h.le_high y).mp hy.2

theorem centPoint_eq (hz : |z| < 10 ^ defaultPrec)
    (hsum : |lo + z| < 10 ^ defaultPrec) : centPoint lo z = ((lo + z : ℤ) : ℚ) / 100 := by
  have hround : ∀ m : ℤ, |m| < 10 ^ defaultPrec → roundSig defaultPrec (m : ℚ) = m := by
    intro m hm
    exact Fits.roundSig_eq ⟨m, 0, hm, by simp⟩
  rw [centPoint, hround z hz]
  have := hround (lo + z) hsum
  push_cast at this ⊢
  rw [this]

theorem sorted_dedup (l : List ℤ) : (l.dedup.insertionSort (· ≤ ·)).Pairwise (· < ·) := by
  have hnodup : (l.dedup.insertionSort (· ≤ ·)).Nodup :=
    (List.perm_insertionSort (· ≤ ·) _).nodup_iff.mpr l.nodup_dedup
  exact (List.pairwise_insertionSort (· ≤ ·) l.dedup).imp₂
    (fun a b hle hne => lt_of_le_of_ne hle hne) hnodup

theorem mem_sorted_dedup {l : List ℤ} : z ∈ l.dedup.insertionSort (· ≤ ·) ↔ z ∈ l := by
  rw [List.mem_insertionSort, List.mem_dedup]

variable {randints : String → ℤ → ℤ → List ℤ} {seed : ℕ}

/-- The grid of a numeric input spans its range. -/
theorem monotoneGrid_spans (hr : Randint randints) (hf : f.isOrderedEnum = false)
    (h : sweptRange f check = .ok (lo, hi)) (hwidth : f.type = .int ∨ hi - lo < 10 ^ defaultPrec) :
    ∃ low high points, sweepBounds f check = some (low, high) ∧
      monotoneGrid randints seed f check = .ok (points.map f.pointValue) ∧
      Spans f low high points := by
  obtain ⟨low, high, hbounds, hrange, hdigits⟩ := isRange_of_sweptRange h
  refine ⟨low, high, ?_⟩
  by_cases hint : f.type = .int
  · set l := (uniformOffsets (hi - lo)).map (lo + ·) ++
      randints (toString seed ++ ":" ++ f.name) lo hi with hl
    refine ⟨l.dedup.insertionSort (· ≤ ·), hbounds, ?_, hrange.spans (sorted_dedup l) ?_ ?_ ?_⟩
    · have hvalue : f.pointValue = Value.int := by
        ext1 z
        rw [InputContractField.pointValue, if_pos hint]
      simp only [monotoneGrid, hf, h, hint, Bool.false_eq_true, if_false, if_true, hvalue]
      rfl
    · intro z hz
      rw [mem_sorted_dedup, hl, List.mem_append, List.mem_map] at hz
      rcases hz with ⟨x, hx, rfl⟩ | hz
      · have := uniformOffsets_within (sub_nonneg.mpr hrange.le) hx
        omega
      · exact hr _ _ _ hrange.le z hz
    · rw [mem_sorted_dedup, hl, List.mem_append, List.mem_map]
      exact .inl ⟨0, zero_mem_uniformOffsets, add_zero lo⟩
    · rw [mem_sorted_dedup, hl, List.mem_append, List.mem_map]
      exact .inl ⟨hi - lo, width_mem_uniformOffsets, add_sub_cancel lo hi⟩
  · have hw := hwidth.resolve_left hint
    obtain ⟨hlo, hhi⟩ := hdigits hint
    rw [abs_lt] at hlo hhi
    have hle := hrange.le
    have hround : roundSig defaultPrec ((hi - lo : ℤ) : ℚ) = ((hi - lo : ℤ) : ℚ) :=
      Fits.roundSig_eq ⟨hi - lo, 0, by rw [abs_lt]; omega, by simp⟩
    set offsets := uniformOffsets (hi - lo) ++
      randints (toString seed ++ ":" ++ f.name) 0 (hi - lo) with ho
    have hoffset : ∀ x ∈ offsets, 0 ≤ x ∧ x ≤ hi - lo := by
      intro x hx
      rcases List.mem_append.mp hx with hx | hx
      · exact uniformOffsets_within (sub_nonneg.mpr hle) hx
      · exact hr _ _ _ (sub_nonneg.mpr hle) x hx
    set l := offsets.map (lo + ·) with hl
    have hcents : offsets.map (centPoint lo) = l.map fun z : ℤ => (z : ℚ) / 100 := by
      rw [hl, List.map_map]
      apply List.map_congr_left
      intro x hx
      have := hoffset x hx
      exact centPoint_eq (by rw [abs_lt]; omega) (by rw [abs_lt]; omega)
    have hinj : Function.Injective fun z : ℤ => (z : ℚ) / 100 := by
      intro a b hab
      have := (div_left_inj' (by norm_num : (100 : ℚ) ≠ 0)).mp hab
      exact_mod_cast this
    refine ⟨l.dedup.insertionSort (· ≤ ·), hbounds, ?_, hrange.spans (sorted_dedup l) ?_ ?_ ?_⟩
    · have hvalue : f.pointValue =
          (fun q : ℚ => Value.decimal (.finite q)) ∘ fun z : ℤ => (z : ℚ) / 100 := by
        ext1 z
        rw [InputContractField.pointValue, if_neg hint, Function.comp_apply]
      have hsort : (l.dedup.insertionSort (· ≤ ·)).map (fun z : ℤ => (z : ℚ) / 100) =
          (l.map fun z : ℤ => (z : ℚ) / 100).dedup.insertionSort (· ≤ ·) := by
        rw [List.dedup_map_of_injective hinj]
        apply List.map_insertionSort
        intro a _ b _
        rw [div_le_div_iff_of_pos_right (by norm_num), Int.cast_le]
      rw [hvalue, ← List.map_map, hsort, ← hcents, ho]
      simp only [monotoneGrid, hf, h, hint, Bool.false_eq_true, if_false]
      change Except.ok _ = _
      rw [hround, Int.floor_intCast]
    · intro z hz
      rw [mem_sorted_dedup, hl, List.mem_map] at hz
      obtain ⟨x, hx, rfl⟩ := hz
      have := hoffset x hx
      omega
    · rw [mem_sorted_dedup, hl, List.mem_map]
      exact ⟨0, List.mem_append_left _ zero_mem_uniformOffsets, add_zero lo⟩
    · rw [mem_sorted_dedup, hl, List.mem_map]
      exact ⟨hi - lo, List.mem_append_left _ width_mem_uniformOffsets, add_sub_cancel lo hi⟩

end Grid

/-! ## The sweep -/

section Sweep

variable {check : MonotoneInInput} {scoreAt : Value → Except Raised (Option ScoringResult)}
  {previous : Option (Value × ℤ)} {quoted : ℕ} {grid : List Value} {value : Value}
  {scored : ScoringResult}

/-- Two premiums are in the order the property asks for. -/
def MonotoneInInput.InOrder (check : MonotoneInInput) (a b : ℤ) : Prop := check.ordered a b = true

instance : DecidableRel check.InOrder := fun a b =>
  inferInstanceAs (Decidable (check.ordered a b = true))

instance : IsTrans ℤ check.InOrder where
  trans a b c := by
    unfold MonotoneInInput.InOrder MonotoneInInput.ordered
    rcases check.direction with _ | _ <;> rcases check.strict with _ | _ <;> simp <;> omega

/-- What a sweep needs of a grid, after the last quoted point. -/
def Holds (check : MonotoneInInput) (scoreAt : Value → Except Raised (Option ScoringResult))
    (previous : Option ℤ) (grid : List Value) : Prop :=
  ∃ results, List.Forall₂ (fun value scored => scoreAt value = .ok (some scored)) grid results ∧
    (previous.toList ++ results.filterMap payableMinor).IsChain check.InOrder

theorem holds_nil {p : Option ℤ} : Holds check scoreAt p [] := by
  refine ⟨[], .nil, ?_⟩
  cases p <;> simp

theorem holds_cons {p : Option ℤ} (h : scoreAt value = .ok (some scored)) :
    Holds check scoreAt p (value :: grid) ↔
      (∀ a ∈ p, ∀ b ∈ payableMinor scored, check.InOrder a b) ∧
        Holds check scoreAt ((payableMinor scored).or p) grid := by
  have hsplit : Holds check scoreAt p (value :: grid) ↔ ∃ results,
      List.Forall₂ (fun value scored => scoreAt value = .ok (some scored)) grid results ∧
        (p.toList ++ (scored :: results).filterMap payableMinor).IsChain check.InOrder := by
    constructor
    · rintro ⟨results, hall, hchain⟩
      obtain _ | ⟨hhead, hrest⟩ := hall
      rw [h, Except.ok.injEq, Option.some.injEq] at hhead
      subst hhead
      exact ⟨_, hrest, hchain⟩
    · rintro ⟨results, hrest, hchain⟩
      exact ⟨scored :: results, .cons h hrest, hchain⟩
  rw [hsplit, Holds, ← exists_and_left]
  apply exists_congr
  intro results
  rw [and_left_comm, and_congr_right_iff]
  intro _
  cases hb : payableMinor scored with
  | none => simp [hb]
  | some b =>
    cases p with
    | none => simp [hb]
    | some a => simp [hb, List.isChain_cons_cons]

/-- A sweep holds where every point is scored and every quoted point follows the one before it in
order. The induction is on the grid, for every last quoted point. -/
theorem sweepFrom_holds :
    (∃ n, sweepFrom check scoreAt previous quoted grid = .ok ⟨none, n⟩) ↔
      Holds check scoreAt (previous.map Prod.snd) grid := by
  induction grid generalizing previous quoted with
  | nil => exact ⟨fun _ => holds_nil, fun _ => ⟨quoted, rfl⟩⟩
  | cons value grid ih =>
    cases hscore : scoreAt value with
    | error e =>
      constructor
      · rintro ⟨n, hn⟩
        simp [sweepFrom, hscore, bind, Except.bind] at hn
      · rintro ⟨results, hall, -⟩
        obtain _ | ⟨hhead, -⟩ := hall
        rw [hscore] at hhead
        cases hhead
    | ok result =>
      cases result with
      | none =>
        constructor
        · rintro ⟨n, hn⟩
          simp [sweepFrom, hscore, bind, Except.bind] at hn
        · rintro ⟨results, hall, -⟩
          obtain _ | ⟨hhead, -⟩ := hall
          rw [hscore] at hhead
          cases hhead
      | some scored =>
        rw [holds_cons hscore]
        simp only [sweepFrom, hscore, bind, Except.bind]
        cases hpremium : payableMinor scored with
        | none => simp [ih]
        | some premium =>
          cases previous with
          | none => simp [ih]
          | some p =>
            by_cases hordered : check.ordered p.2 premium = true
            · simp [hordered, ih, MonotoneInInput.InOrder]
            · simp [hordered, MonotoneInInput.InOrder]

end Sweep

/-! ## Results -/

/-- The points of a sweep are scored, and every two that are quoted are in order. -/
def ScoredInOrder (check : MonotoneInInput)
    (scoreAt : Value → Except Raised (Option ScoringResult)) (grid : List Value) : Prop :=
  ∃ results, List.Forall₂ (fun value scored => scoreAt value = .ok (some scored)) grid results ∧
    (results.filterMap payableMinor).Pairwise check.InOrder

/-- The grid of a numeric input spans its range, that of an ordered enum is its levels, and a sweep
holds exactly where all its points are scored and every two quoted ones are in order. -/
theorem monotoneSweep_conclusive {randints : String → ℤ → ℤ → List ℤ} (hr : Randint randints)
    (seed : ℕ) (score : Scorer) (check : MonotoneInInput) (f : InputContractField)
    (context : QuoteContext) :
    (∀ lo hi, f.isOrderedEnum = false → sweptRange f check = .ok (lo, hi) →
      f.type = .int ∨ hi - lo < 10 ^ defaultPrec →
      ∃ low high points, sweepBounds f check = some (low, high) ∧
        monotoneGrid randints seed f check = .ok (points.map f.pointValue) ∧
        Spans f low high points) ∧
    (f.isOrderedEnum = true →
      monotoneGrid randints seed f check = .ok ((f.domain.getD []).map .text)) ∧
    ∀ grid, monotoneGrid randints seed f check = .ok grid →
      ((∃ n, monotoneSweep randints seed score check f context = .ok ⟨none, n⟩) ↔
        ScoredInOrder check (fun value => score (context.withInput f.name value)) grid) := by
  refine ⟨fun lo hi hf h hwidth => monotoneGrid_spans hr hf h hwidth, fun hf => ?_, ?_⟩
  · rw [monotoneGrid, if_pos hf]
  · intro grid hgrid
    have hsweep : monotoneSweep randints seed score check f context =
        sweepFrom check (fun value => score (context.withInput f.name value)) none 0 grid := by
      rw [monotoneSweep, hgrid]
      rfl
    rw [hsweep, sweepFrom_holds, Holds, ScoredInOrder]
    simp only [Option.map_none, Option.toList_none, List.nil_append, List.isChain_iff_pairwise]

/-! ## An age whose middle point is refused -/

def ageField : InputContractField := { name := "age", type := .int }

def agesUpward : MonotoneInInput := ⟨"age", .increasing, false, some 0, some 4⟩

def quotedAt (premium : ℤ) : ScoringResult :=
  ⟨.quoted, [⟨.payablePremium, premium, none, none, none⟩], [], []⟩

def refusesAt (age : ℤ) : Scorer := fun context =>
  if context.inputs.get? "age" = some (.int age) then .ok none else .ok (some (quotedAt 100))

def noInputs : QuoteContext := generatedContext Dict.empty

/-- A premium that rises with the age, and is declined at one. -/
def declinesAt (declined : ℤ) : Scorer := fun context =>
  match context.inputs.get? "age" with
  | some (.int age) =>
    .ok (some (if age = declined then ⟨.declined, [], [], ["age"]⟩ else quotedAt (100 + age)))
  | _ => .ok none

/-- The age that is declined is a gap. -/
theorem ages_conclusive :
    ∃ n, monotoneSweep (fun _ _ _ => []) 0 (declinesAt 2) agesUpward ageField noInputs =
      .ok ⟨none, n⟩ := by
  have hnone : Randint fun _ _ _ => [] := by rintro _ _ _ - _ ⟨⟩
  have h := monotoneSweep_conclusive hnone 0 (declinesAt 2) agesUpward ageField noInputs
  apply (h.2.2 [.int 0, .int 1, .int 2, .int 3, .int 4] (by decide)).mpr
  refine ⟨[quotedAt 100, quotedAt 101, ⟨.declined, [], [], ["age"]⟩, quotedAt 103, quotedAt 104],
    ?_, by decide⟩
  repeat constructor

/-- Every two quoted ages are in order, and the sweep of the age that is refused does not hold. -/
theorem refusedAge_breaks :
    monotoneSweep (fun _ _ _ => []) 0 (refusesAt 2) agesUpward ageField noInputs =
        .ok ⟨some (.int 2, .int 2), 2⟩ ∧
      ∀ a b scored scored' premium premium',
        refusesAt 2 (noInputs.withInput "age" a) = .ok (some scored) →
        refusesAt 2 (noInputs.withInput "age" b) = .ok (some scored') →
        payableMinor scored = some premium → payableMinor scored' = some premium' →
        agesUpward.InOrder premium premium' := by
  refine ⟨by decide, ?_⟩
  intro a b scored scored' premium premium' ha hb hp hp'
  have hsame : ∀ v r, refusesAt 2 (noInputs.withInput "age" v) = .ok (some r) →
      r = quotedAt 100 := by
    intro v r hr
    rw [refusesAt] at hr
    split_ifs at hr with hrefused
    · cases hr
    · exact (Option.some.inj (Except.ok.inj hr)).symm
  rw [hsame a scored ha] at hp
  rw [hsame b scored' hb] at hp'
  cases hp
  cases hp'
  decide

end GiPricing
