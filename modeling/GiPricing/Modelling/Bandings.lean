import GiPricing.Failure.Except
import GiPricing.Numeric.Decimal
import GiPricing.Order.Cuts
import Mathlib.Data.List.ReduceOption

/-! # Bandings

A column of numbers mapped to the labels of its bands. The numbers are read as floats, whose order
is a parameter here; a null is no number.
-/

namespace GiPricing.Bandings

open Cuts Failure

/-- What a value outside the boundaries does: it is refused, it takes the label of the outer band,
or it takes the null level. -/
inductive RangePolicy
  | error
  | clamp
  | nullLevel
  deriving DecidableEq

inductive Edge
  | below
  | above
  deriving DecidableEq

/-- A banding as its checks accept it. -/
structure Banding (F : Type*) [LinearOrder F] where
  boundaries : List F
  closed : Closed
  labels : List String
  nullLevel : Option String
  belowRange : RangePolicy
  aboveRange : RangePolicy
  two : 2 ≤ boundaries.length
  increase : boundaries.IsChain (· < ·)
  oneLabelEach : labels.length + 1 = boundaries.length
  distinct : labels.Nodup
  nullApart : ∀ level ∈ nullLevel, level ∉ labels

inductive Refusal (F : Type*)
  | outOfRange (edge : Edge) (count : ℕ) (boundary offending : F)
  | noNullLevel (edge : Edge)
  | nullValues (count : ℕ)
  deriving DecidableEq

variable {F : Type*} [LinearOrder F]

namespace Banding

variable (b : Banding F)

theorem boundaries_ne_nil : b.boundaries ≠ [] :=
  List.ne_nil_of_length_pos (Nat.zero_lt_two.trans_le b.two)

def first : F := b.boundaries.head b.boundaries_ne_nil

def last : F := b.boundaries.getLast b.boundaries_ne_nil

/-- `boundaries[1:-1]`. -/
def interior : List F := b.boundaries.tail.dropLast

def labelAt (i : ℕ) : String := b.labels.getD (min i (b.labels.length - 1)) ""

/-- The band that the search finds: a null is after every number. -/
def search : Option F → ℕ
  | some x => passed b.closed b.interior x
  | none => b.interior.length

def policy : Edge → RangePolicy
  | .below => b.belowRange
  | .above => b.aboveRange

def boundary : Edge → F
  | .below => b.first
  | .above => b.last

def outerLabel : Edge → String
  | .below => b.labelAt 0
  | .above => b.labelAt (b.labels.length - 1)

def beyond : Edge → F → Bool
  | .below, x => x < b.first
  | .above, x => b.last < x

/-- `out[mask] = level`. -/
def put (mask : Option F → Bool) (level : String) (values : List (Option F)) (out : List String) :
    List String := List.zipWith (fun value label => if mask value then level else label) values out

/-- `_resolve_edge`. -/
def resolveEdge (edge : Edge) (values : List (Option F)) (out : List String) :
    Except (Refusal F) (List String) :=
  match values.reduceOption.filter (b.beyond edge) with
  | [] => .ok out
  | offending :: more => match b.policy edge with
    | .error => .error (.outOfRange edge (more.length + 1) (b.boundary edge) offending)
    | .nullLevel => match b.nullLevel with
      | none => .error (.noNullLevel edge)
      | some level => .ok (put (·.any (b.beyond edge)) level values out)
    | .clamp => .ok (put (·.any (b.beyond edge)) (b.outerLabel edge) values out)

/-- `apply_banding`, of a column whose cells are cast to floats; a float that is no number is a
null. -/
def applyBanding {V : Type*} (cast : V → Option F) (series : List (Option V)) :
    Except (Refusal F) (List String) := do
  let values := series.map (·.bind cast)
  let out ← b.resolveEdge .below values (values.map fun value => b.labelAt (b.search value))
  let out ← b.resolveEdge .above values out
  if values.any Option.isNone then
    match b.nullLevel with
    | none => .error (.nullValues (values.countP Option.isNone))
    | some level => return put Option.isNone level values out
  else return out

/-! ## What a value is mapped to -/

/-- The label of a value: that of its band, what the policy of an edge says, or the null level. -/
inductive Labelled : Option F → String → Prop
  | within {x : F} {i : ℕ} {label : String} : b.first ≤ x → x ≤ b.last →
      x ∈ band b.closed b.boundaries i → b.labels[i]? = some label → Labelled (some x) label
  | clamped {x : F} {edge : Edge} : b.beyond edge x → b.policy edge = .clamp →
      Labelled (some x) (b.outerLabel edge)
  | sent {x : F} {edge : Edge} {level : String} : b.beyond edge x → b.policy edge = .nullLevel →
      b.nullLevel = some level → Labelled (some x) level
  | null {level : String} : b.nullLevel = some level → Labelled none level

/-- The label that the policy of an edge gives. -/
def edgeLabel (edge : Edge) : Option String := match b.policy edge with
  | .error => none
  | .nullLevel => b.nullLevel
  | .clamp => some (b.outerLabel edge)

/-- The label of a value, cell by cell. -/
def cellLabel : Option F → Option String
  | none => b.nullLevel
  | some x =>
    if b.beyond .above x then b.edgeLabel .above
    else if b.beyond .below x then b.edgeLabel .below
    else some (b.labelAt (b.search (some x)))

variable {b} {values : List (Option F)} {out : List String} {g : Option F → String}
  {mask : Option F → Bool} {level : Option String} {edge : Edge}

/-- The masked values take a level, which must be there where a value is masked. -/
def Overlaid (mask : Option F → Bool) (level : Option String) (values : List (Option F))
    (g : Option F → String) (out : List String) : Prop :=
  (∀ value ∈ values, mask value = true → level.isSome) ∧
    out = values.map fun value => if mask value then level.getD "" else g value

omit [LinearOrder F] in
theorem put_map (text : String) : put mask text values (values.map g) =
    values.map fun value => if mask value then text else g value := by
  induction values with
  | nil => rfl
  | cons value values ih => simp only [put, List.map_cons, List.zipWith_cons_cons] at ih ⊢; rw [ih]

theorem resolveEdge_eq_ok : b.resolveEdge edge values (values.map g) = .ok out ↔
    Overlaid (·.any (b.beyond edge)) (b.edgeLabel edge) values g out := by
  rw [resolveEdge, Overlaid]
  cases hbeyond : values.reduceOption.filter (b.beyond edge) with
  | nil =>
    have hnone : ∀ value ∈ values, ¬ value.any (b.beyond edge) = true := by
      rintro (_ | x) hvalue hany
      · cases hany
      · have : x ∈ values.reduceOption.filter (b.beyond edge) :=
          List.mem_filter.mpr ⟨List.reduceOption_mem_iff.mpr hvalue, hany⟩
        rw [hbeyond] at this
        cases this
    have hmap : values.map (fun value =>
        if value.any (b.beyond edge) then (b.edgeLabel edge).getD "" else g value) = values.map g :=
      List.map_congr_left fun value hvalue => if_neg (hnone value hvalue)
    rw [hmap]
    constructor
    · intro h
      exact ⟨fun value hvalue hany => absurd hany (hnone value hvalue), (Except.ok.inj h).symm⟩
    · rintro ⟨-, rfl⟩
      rfl
  | cons offending more =>
    have hsome : (∀ value ∈ values, value.any (b.beyond edge) = true → (b.edgeLabel edge).isSome) ↔
        (b.edgeLabel edge).isSome := by
      constructor
      · intro h
        have hmem : offending ∈ values.reduceOption.filter (b.beyond edge) :=
          hbeyond ▸ List.mem_cons_self
        obtain ⟨hin, hbey⟩ := List.mem_filter.mp hmem
        exact h (some offending) (List.reduceOption_mem_iff.mp hin) hbey
      · exact fun h _ _ _ => h
    rw [hsome, edgeLabel]
    cases b.policy edge with
    | error => simp
    | clamp =>
      rw [put_map]
      exact ⟨fun h => ⟨rfl, (Except.ok.inj h).symm⟩, fun h => congrArg Except.ok h.2.symm⟩
    | nullLevel =>
      cases b.nullLevel with
      | none => simp
      | some level =>
        simp only [put_map]
        exact ⟨fun h => ⟨rfl, (Except.ok.inj h).symm⟩, fun h => congrArg Except.ok h.2.symm⟩

theorem nullsPut_eq_ok : (if values.any Option.isNone then
      match b.nullLevel with
      | none => .error (.nullValues (values.countP Option.isNone))
      | some level => return put Option.isNone level values (values.map g)
    else return values.map g : Except (Refusal F) (List String)) = .ok out ↔
    Overlaid Option.isNone b.nullLevel values g out := by
  rw [Overlaid]
  split_ifs with hany
  · have hsome : (∀ value ∈ values, value.isNone = true → b.nullLevel.isSome) ↔
        b.nullLevel.isSome := by
      obtain ⟨value, hvalue, hnone⟩ := List.any_eq_true.mp hany
      exact ⟨fun h => h value hvalue hnone, fun h _ _ _ => h⟩
    rw [hsome]
    cases b.nullLevel with
    | none => simp
    | some level =>
      simp only [put_map]
      exact ⟨fun h => ⟨rfl, (Except.ok.inj h).symm⟩, fun h => congrArg Except.ok h.2.symm⟩
  · have hnone : ∀ value ∈ values, ¬ value.isNone = true := by
      intro value hvalue hv
      exact hany (List.any_eq_true.mpr ⟨value, hvalue, hv⟩)
    have hmap : values.map (fun value => if value.isNone then b.nullLevel.getD "" else g value) =
        values.map g := List.map_congr_left fun value hvalue => if_neg (hnone value hvalue)
    rw [hmap]
    constructor
    · intro h
      exact ⟨fun value hvalue hv => absurd hv (hnone value hvalue), (Except.ok.inj h).symm⟩
    · rintro ⟨-, rfl⟩
      rfl

theorem forall₂_cellLabel :
    List.Forall₂ (fun value label => b.cellLabel value = some label) values out ↔
    (∀ value ∈ values, (b.cellLabel value).isSome) ∧
      out = values.map fun value => (b.cellLabel value).getD "" := by
  induction values generalizing out with
  | nil => simp
  | cons value values ih =>
    rw [List.forall₂_cons_left_iff]
    constructor
    · rintro ⟨label, rest, hlabel, hrest, rfl⟩
      obtain ⟨hall, rfl⟩ := ih.mp hrest
      refine ⟨?_, by simp [hlabel]⟩
      intro v hv
      rcases List.mem_cons.mp hv with rfl | hv
      · simp [hlabel]
      · exact hall v hv
    · rintro ⟨hall, rfl⟩
      obtain ⟨label, hlabel⟩ := Option.isSome_iff_exists.mp (hall value List.mem_cons_self)
      refine ⟨label, _, hlabel, ih.mpr ⟨fun v hv => hall v (List.mem_cons_of_mem _ hv), rfl⟩, ?_⟩
      simp [hlabel]

theorem boundaries_eq : b.boundaries = b.first :: (b.interior ++ [b.last]) := by
  have htail : b.boundaries.tail ≠ [] := by
    apply List.ne_nil_of_length_pos
    have := b.two
    rw [List.length_tail]
    omega
  have hlast : b.last = b.boundaries.tail.getLast htail := (List.getLast_tail htail).symm
  rw [interior, hlast, List.dropLast_append_getLast, first, List.cons_head_tail]

theorem increasing : (b.first :: (b.interior ++ [b.last])).Pairwise (· < ·) := by
  rw [← boundaries_eq]
  exact List.isChain_iff_pairwise.mp b.increase

theorem first_lt_last : b.first < b.last :=
  (List.pairwise_cons.mp increasing).1 b.last (List.mem_append_right _ List.mem_cons_self)

theorem cellLabel_spec (value : Option F) :
    ((b.cellLabel value).isSome ↔
      (value.any (b.beyond .below) = true → (b.edgeLabel .below).isSome) ∧
      (value.any (b.beyond .above) = true → (b.edgeLabel .above).isSome) ∧
      (value.isNone = true → b.nullLevel.isSome)) ∧
    (b.cellLabel value).getD "" = if value.isNone then b.nullLevel.getD "" else
      if value.any (b.beyond .above) then (b.edgeLabel .above).getD "" else
      if value.any (b.beyond .below) then (b.edgeLabel .below).getD "" else
      b.labelAt (b.search value) := by
  cases value with
  | none => simp [cellLabel]
  | some x =>
    have hboth : b.beyond .above x = true → ¬ b.beyond .below x = true := by
      simp only [beyond, decide_eq_true_eq, not_lt]
      exact fun h => (first_lt_last.trans h).le
    by_cases habove : b.beyond .above x = true
    · simp [cellLabel, habove, hboth habove]
    · by_cases hbelow : b.beyond .below x = true
      · simp [cellLabel, habove, hbelow]
      · simp [cellLabel, habove, hbelow]

theorem applyBanding_eq_ok {V : Type*} {cast : V → Option F} {series : List (Option V)} :
    b.applyBanding cast series = .ok out ↔ List.Forall₂
      (fun value label => b.cellLabel value = some label) (series.map (·.bind cast)) out := by
  rw [applyBanding, forall₂_cellLabel]
  generalize series.map (·.bind cast) = values
  constructor
  · intro h
    obtain ⟨out₁, h₁, h⟩ := bind_eq_ok.mp h
    obtain ⟨hbelow, rfl⟩ := resolveEdge_eq_ok.mp h₁
    obtain ⟨out₂, h₂, h⟩ := bind_eq_ok.mp h
    obtain ⟨habove, rfl⟩ := resolveEdge_eq_ok.mp h₂
    obtain ⟨hnull, rfl⟩ := nullsPut_eq_ok.mp h
    constructor
    · intro value hvalue
      exact (cellLabel_spec value).1.mpr
        ⟨hbelow value hvalue, habove value hvalue, hnull value hvalue⟩
    · apply List.map_congr_left
      intro value _
      exact (cellLabel_spec value).2.symm
  · rintro ⟨hall, rfl⟩
    have hneeds := fun value hvalue => (cellLabel_spec value).1.mp (hall value hvalue)
    apply bind_eq_ok.mpr
    refine ⟨_, resolveEdge_eq_ok.mpr ⟨fun v hv => (hneeds v hv).1, rfl⟩, ?_⟩
    apply bind_eq_ok.mpr
    refine ⟨_, resolveEdge_eq_ok.mpr ⟨fun v hv => (hneeds v hv).2.1, rfl⟩, ?_⟩
    apply nullsPut_eq_ok.mpr
    refine ⟨fun v hv => (hneeds v hv).2.2, ?_⟩
    apply List.map_congr_left
    intro value _
    exact (cellLabel_spec value).2

theorem mem_band_iff {x : F} {i : ℕ} (hfirst : b.first ≤ x) (hlast : x ≤ b.last) :
    x ∈ band b.closed b.boundaries i ↔ i = b.search (some x) := by
  rw [boundaries_eq, Cuts.mem_band_iff _ hfirst hlast, search]
  exact (List.pairwise_append.mp (List.pairwise_cons.mp increasing).2).1

theorem search_lt (x : Option F) : b.search x < b.labels.length := by
  have hlength : b.boundaries.length = b.interior.length + 2 := by
    rw [boundaries_eq, List.length_cons, List.length_append, List.length_singleton]
  have hlabels := b.oneLabelEach
  have hle : b.search x ≤ b.interior.length := by
    cases x with
    | none => exact le_rfl
    | some x => exact passed_le
  omega

theorem labels_search (x : Option F) : b.labels[b.search x]? = some (b.labelAt (b.search x)) := by
  have hlt := b.search_lt x
  rw [labelAt, min_eq_left (by omega), List.getD_eq_getElem?_getD, List.getElem?_eq_getElem hlt,
    Option.getD_some]

theorem edgeLabel_eq_some {label : String} : b.edgeLabel edge = some label ↔
    (b.policy edge = .clamp ∧ b.outerLabel edge = label) ∨
      (b.policy edge = .nullLevel ∧ b.nullLevel = some label) := by
  rw [edgeLabel]
  cases b.policy edge <;> simp

theorem cellLabel_of_beyond {x : F} (h : b.beyond edge x = true) :
    b.cellLabel (some x) = b.edgeLabel edge := by
  cases edge with
  | above => rw [cellLabel, if_pos h]
  | below =>
    have hbelow : x < b.first := by simpa [beyond] using h
    have habove : ¬ b.beyond .above x = true := by
      simpa [beyond] using (hbelow.trans first_lt_last).le
    rw [cellLabel, if_neg habove, if_pos h]

theorem labelled_iff {value : Option F} {label : String} :
    b.Labelled value label ↔ b.cellLabel value = some label := by
  constructor
  · intro h
    cases h with
    | null h => exact h
    | @within x i label hfirst hlast hband hlabel =>
      rw [mem_band_iff hfirst hlast] at hband
      subst hband
      rw [labels_search] at hlabel
      simp [cellLabel, beyond, hfirst.not_gt, hlast.not_gt, Option.some.inj hlabel]
    | @clamped x edge hbeyond hpolicy =>
      rw [cellLabel_of_beyond hbeyond]
      exact edgeLabel_eq_some.mpr (.inl ⟨hpolicy, rfl⟩)
    | @sent x edge level hbeyond hpolicy hlevel =>
      rw [cellLabel_of_beyond hbeyond]
      exact edgeLabel_eq_some.mpr (.inr ⟨hpolicy, hlevel⟩)
  · intro h
    cases value with
    | none => exact .null h
    | some x =>
      rw [cellLabel] at h
      split_ifs at h with habove hbelow
      · rcases edgeLabel_eq_some.mp h with ⟨hpolicy, rfl⟩ | ⟨hpolicy, hlevel⟩
        · exact .clamped habove hpolicy
        · exact .sent habove hpolicy hlevel
      · rcases edgeLabel_eq_some.mp h with ⟨hpolicy, rfl⟩ | ⟨hpolicy, hlevel⟩
        · exact .clamped hbelow hpolicy
        · exact .sent hbelow hpolicy hlevel
      · have hfirst : b.first ≤ x := by simpa [beyond] using hbelow
        have hlast : x ≤ b.last := by simpa [beyond] using habove
        rw [Option.some.injEq] at h
        subst h
        exact .within hfirst hlast ((mem_band_iff hfirst hlast).mpr rfl) (labels_search _)

/-- Every value takes the label of its band, which is the only one that holds it, what the policy of
an edge says, or the null level. The column is refused exactly where a value has no label. -/
theorem applyBanding_labels {V : Type} (b : Banding F) (cast : V → Option F)
    (series : List (Option V)) :
    (∀ out, b.applyBanding cast series = .ok out ↔
      List.Forall₂ (fun cell label => b.Labelled (cell.bind cast) label) series out) ∧
    ((∃ refusal, b.applyBanding cast series = .error refusal) ↔
      ∃ cell ∈ series, ∀ label, ¬ b.Labelled (cell.bind cast) label) ∧
    (∀ x, b.first ≤ x → x ≤ b.last → ∃! i, x ∈ band b.closed b.boundaries i) ∧
    ∀ (i j : ℕ) (label : String),
      b.labels[i]? = some label → b.labels[j]? = some label → i = j := by
  have hok : ∀ out, b.applyBanding cast series = .ok out ↔
      List.Forall₂ (fun cell label => b.Labelled (cell.bind cast) label) series out := by
    intro out
    rw [applyBanding_eq_ok, List.forall₂_map_left_iff]
    simp only [labelled_iff]
  refine ⟨hok, ?_, ?_, ?_⟩
  · constructor
    · rintro ⟨refusal, h⟩
      by_contra! hall
      choose! label hlabel using hall
      have : b.applyBanding cast series = .ok (series.map label) := by
        rw [hok, List.forall₂_map_right_iff, List.forall₂_same]
        exact hlabel
      rw [h] at this
      cases this
    · rintro ⟨cell, hcell, hnone⟩
      cases h : b.applyBanding cast series with
      | error refusal => exact ⟨refusal, rfl⟩
      | ok out =>
        obtain ⟨label, -, hlabel⟩ := exists_of_forall₂ ((hok out).mp h) hcell
        exact absurd hlabel (hnone label)
  · intro x hfirst hlast
    refine ⟨b.search (some x), (mem_band_iff hfirst hlast).mpr rfl, ?_⟩
    intro i hi
    exact (mem_band_iff hfirst hlast).mp hi
  · intro i j label hi hj
    obtain ⟨hi', hlabel⟩ := List.getElem?_eq_some_iff.mp hi
    obtain ⟨hj', hlabel'⟩ := List.getElem?_eq_some_iff.mp hj
    exact (List.Nodup.getElem_inj_iff b.distinct).mp (hlabel.trans hlabel'.symm)

end Banding

/-! ## A whole number that is no float -/

def toFloat (n : ℤ) : Option ℚ :=
  let unit : ℚ := 2 ^ (Int.log 2 |(n : ℚ)| - 52)
  some (Decimal.roundInt .halfEven (n / unit) * unit)

/-- Two bands that divide at the greatest float before which every whole number is one. -/
def wideBanding : Banding ℚ where
  boundaries := [0, 9007199254740992, 18014398509481984]
  closed := .right
  labels := ["low", "high"]
  nullLevel := none
  belowRange := .error
  aboveRange := .error
  two := by decide
  increase := by decide
  oneLabelEach := rfl
  distinct := by decide
  nullApart := by rintro level ⟨⟩

/-- The next whole number is in the second band, and it takes the label of the first. -/
theorem wideBanding_rounds :
    wideBanding.applyBanding toFloat [some 9007199254740993] = .ok ["low"] ∧
      ((9007199254740993 : ℤ) : ℚ) ∈ band wideBanding.closed wideBanding.boundaries 1 ∧
      wideBanding.labels[1]? = some "high" := by
  refine ⟨by with_unfolding_all decide, ?_, rfl⟩
  exact ⟨9007199254740992, rfl, 18014398509481984, rfl, .inl (by norm_num), by norm_num⟩

end GiPricing.Bandings
