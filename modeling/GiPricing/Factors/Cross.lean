import Mathlib.Data.List.Forall2
import GiPricing.Factors.Resolve
import GiPricing.Text.Joined

/-! # Interactions

The design column of an interaction, read over a whole frame: the levels of its operands joined
cell by cell. A missing level leaves the joined cell missing.
-/

namespace GiPricing.Factors

open Failure Joining

inductive DType
  | string | categorical | enum | boolean
  | other (name : String)
  deriving DecidableEq, Repr

def DType.isLevels : DType → Bool
  | .string | .categorical | .enum | .boolean => true
  | .other _ => false

/-- A column over the rows of a frame, with each cell as it is cast to a text. -/
structure Series (height : ℕ) where
  dtype : DType
  text : Fin height → Option String

/-- Why the column of a cross is refused, with what the message names. -/
inductive CrossError
  | operandNotSupplied (slug : String) (operand : UUID)
  | operandIsInteraction (slug operand : String)
  | operandNotLevels (slug operand : String) (dtype : DType)
  | keyError (operand : UUID)
  | indexError
  deriving DecidableEq, Repr

section Cross

variable {height : ℕ}

/-- `left + CROSS_SEPARATOR + right` on two cells. -/
def crossCell (left right : Option String) : Option String := do
  let l ← left
  let r ← right
  return l ++ crossSeparator ++ r

variable (factor : Factor) (by_id : UUID → Option Factor)
  (resolved : UUID → Option (Series height))

/-- The cells of one side of the cross. -/
def crossPart (operand_id : UUID) : Except CrossError (Fin height → Option String) := do
  let operand ← require (by_id operand_id) (.operandNotSupplied factor.slug operand_id)
  ensure (operand.type ≠ .interaction) (.operandIsInteraction factor.slug operand.slug)
  let series ← require (resolved operand_id) (.keyError operand_id)
  ensure (series.dtype.isLevels = true)
    (.operandNotLevels factor.slug operand.slug series.dtype)
  return series.text

/-- `_cross`. -/
def cross : Except CrossError (Series height) := do
  match ← factor.operand_factor_ids.mapM (crossPart factor by_id resolved) with
  | [] => .error .indexError
  | part :: parts =>
    return ⟨.string, parts.foldl (fun crossed part i => crossCell (crossed i) (part i)) part⟩

end Cross

/-! ## The cells of a cross -/

def crossLabel : List (Option String) → Option String
  | [] => none
  | level :: levels => levels.foldl crossCell level

def rowLevels {height : ℕ} (factor : Factor) (resolved : UUID → Option (Series height))
    (i : Fin height) : List (Option String) :=
  factor.operand_factor_ids.map fun id => (resolved id).bind fun s => s.text i

theorem crossPart_eq_ok {height : ℕ} {factor : Factor} {by_id : UUID → Option Factor}
    {resolved : UUID → Option (Series height)} {id : UUID} {part : Fin height → Option String} :
    crossPart factor by_id resolved id = .ok part ↔
      (∃ operand, by_id id = some operand ∧ operand.type ≠ .interaction) ∧
      ∃ series, resolved id = some series ∧ series.dtype.isLevels = true ∧ series.text = part := by
  unfold crossPart
  rw [require_bind_eq_ok]
  simp only [ensure_bind_eq_ok, require_bind_eq_ok, pure_eq_ok]
  constructor
  · rintro ⟨operand, hop, htype, series, hs, hd, rfl⟩
    exact ⟨⟨operand, hop, htype⟩, series, hs, hd, rfl⟩
  · rintro ⟨⟨operand, hop, htype⟩, series, hs, hd, rfl⟩
    exact ⟨operand, hop, htype, series, hs, hd, rfl⟩

theorem foldl_crossCell {height : ℕ} (i : Fin height) :
    ∀ (parts : List (Fin height → Option String)) (part : Fin height → Option String),
      parts.foldl (fun crossed part i => crossCell (crossed i) (part i)) part i =
        (parts.map fun p => p i).foldl crossCell (part i)
  | [], _ => rfl
  | p :: parts, part => by
    rw [List.foldl_cons, foldl_crossCell i parts, List.map_cons, List.foldl_cons]

theorem text_of_cross {height : ℕ} {factor : Factor} {by_id : UUID → Option Factor}
    {resolved : UUID → Option (Series height)} {column : Series height}
    (h : cross factor by_id resolved = .ok column) (i : Fin height) :
    column.text i = crossLabel (rowLevels factor resolved i) := by
  unfold cross at h
  obtain ⟨parts, hparts, h⟩ := bind_eq_ok.mp h
  have hlevels : rowLevels factor resolved i = parts.map fun p => p i := by
    have hall := mapM_eq_ok.mp hparts
    rw [rowLevels, ← List.forall₂_eq_eq_eq, List.forall₂_map_left_iff, List.forall₂_map_right_iff]
    refine hall.imp fun id part hid => ?_
    obtain ⟨-, series, hs, -, rfl⟩ := crossPart_eq_ok.mp hid
    rw [hs, Option.bind_some]
  rw [hlevels]
  cases parts with
  | nil => cases h
  | cons part parts =>
    obtain rfl := pure_eq_ok.mp h
    exact foldl_crossCell i parts part

@[simp]
theorem crossCell_none_left (r : Option String) : crossCell none r = none := rfl

@[simp]
theorem crossCell_none_right (l : Option String) : crossCell l none = none := by
  cases l <;> rfl

theorem foldl_crossCell_none (levels : List (Option String)) :
    levels.foldl crossCell none = none := by
  induction levels with
  | nil => rfl
  | cons level levels ih => rw [List.foldl_cons, crossCell_none_left, ih]

theorem crossLabel_eq_none {levels : List (Option String)} (h : none ∈ levels) :
    crossLabel levels = none := by
  match levels, h with
  | first :: rest, h =>
    rw [crossLabel]
    induction rest generalizing first with
    | nil =>
      rw [List.mem_singleton] at h
      exact h.symm
    | cons level rest ih =>
      rw [List.foldl_cons]
      rcases List.mem_cons.mp h with rfl | h
      · rw [crossCell_none_left, foldl_crossCell_none]
      · rcases List.mem_cons.mp h with rfl | h
        · rw [crossCell_none_right, foldl_crossCell_none]
        · exact ih _ (List.mem_cons_of_mem _ h)

def joinedTexts (texts : List String) : List Char := joined ' ' '|' (texts.map String.toList)

theorem crossLabel_some {texts : List String} (h : texts ≠ []) :
    crossLabel (texts.map some) = some (String.ofList (joinedTexts texts)) := by
  cases texts with
  | nil => exact absurd rfl h
  | cons first rest =>
    clear h
    rw [List.map_cons, crossLabel, joinedTexts, List.map_cons]
    induction rest generalizing first with
    | nil => simp [joined]
    | cons level rest ih =>
      have hstep : crossCell (some first) (some level) =
          some (first ++ crossSeparator ++ level) := rfl
      have htext : (first ++ crossSeparator ++ level).toList =
          (first.toList ++ [' ', '|', ' ']) ++ level.toList := by
        simp [crossSeparator]
      rw [List.map_cons, List.foldl_cons, hstep, ih, htext, joined_append, List.map_cons]
      simp [joined]

theorem exists_texts {levels : List (Option String)} (h : none ∉ levels) :
    ∃ texts : List String, levels = texts.map some := by
  induction levels with
  | nil => exact ⟨[], rfl⟩
  | cons level levels ih =>
    obtain ⟨texts, rfl⟩ := ih fun hm => h (List.mem_cons_of_mem _ hm)
    cases level with
    | none => exact absurd List.mem_cons_self h
    | some text => exact ⟨text :: texts, rfl⟩

/-- The levels whose label tells them: none is missing, and none holds the separator or opens one
with a separator that stands next to it. -/
def Legible (levels : List (Option String)) : Prop :=
  ∃ texts : List String, levels = texts.map some ∧ Separable ' ' '|' (texts.map String.toList)

/-- Some other cell of as many levels has the label of a cell that is not legible. -/
theorem exists_other_cell {levels : List (Option String)} (hlen : 2 ≤ levels.length)
    (h : ¬ Legible levels) :
    ∃ others, others.length = levels.length ∧ crossLabel others = crossLabel levels ∧
      others ≠ levels := by
  by_cases hnone : none ∈ levels
  · rw [crossLabel_eq_none hnone]
    match levels, hlen with
    | first :: second :: rest, _ =>
      by_cases hall : first = none
      · refine ⟨some "" :: none :: rest, rfl, crossLabel_eq_none (by simp), ?_⟩
        rw [hall]
        simp
      · refine ⟨none :: second :: rest, rfl, crossLabel_eq_none (by simp), ?_⟩
        simpa using fun h => hall h.symm
  · obtain ⟨texts, rfl⟩ := exists_texts hnone
    have hr : ¬ Separable ' ' '|' (texts.map String.toList) := fun hr => h ⟨texts, rfl, hr⟩
    rw [List.length_map] at hlen
    obtain ⟨ys, hylen, hjoin, hne⟩ := exists_other_reading (by simpa using hlen) hr
    have hys : (ys.map String.ofList).map String.toList = ys := by
      simp [Function.comp_def]
    have hnil : texts ≠ [] := by
      rintro rfl
      simp at hlen
    have hnil' : ys.map String.ofList ≠ [] := by
      intro hnil'
      simp only [List.map_eq_nil_iff] at hnil'
      subst hnil'
      simp at hylen
      omega
    refine ⟨(ys.map String.ofList).map some, by simpa using hylen, ?_, ?_⟩
    · rw [crossLabel_some hnil, crossLabel_some hnil', joinedTexts, hys, hjoin, joinedTexts]
    · intro heq
      refine hne ?_
      rw [← hys, List.map_injective_iff.mpr (Option.some_injective _) heq]

theorem eq_of_crossLabel {levels others : List (Option String)} (hlen : 2 ≤ levels.length)
    (h : Legible levels) (hothers : others.length = levels.length)
    (hlabel : crossLabel others = crossLabel levels) : others = levels := by
  obtain ⟨texts, rfl, hr⟩ := h
  rw [List.length_map] at hlen hothers
  have hnil : texts ≠ [] := by
    rintro rfl
    simp at hlen
  rw [crossLabel_some hnil] at hlabel
  have hnone : none ∉ others := by
    intro hn
    rw [crossLabel_eq_none hn] at hlabel
    cases hlabel
  obtain ⟨texts', rfl⟩ := exists_texts hnone
  rw [List.length_map] at hothers
  have hnil' : texts' ≠ [] := by
    rintro rfl
    simp at hothers
    omega
  rw [crossLabel_some hnil', Option.some_inj, String.ofList_inj] at hlabel
  have hsame := (separable_iff (by decide) (by simpa using hlen)).mp hr
    (texts'.map String.toList) (by simpa using hothers) hlabel
  rw [List.map_injective_iff.mpr (fun _ _ h => String.toList_inj.mp h) hsame]

/-! ## Crosses of frames -/

/-- A cross that was resolved on a frame. -/
structure Crossing where
  height : ℕ
  factor : Factor
  by_id : UUID → Option Factor
  resolved : UUID → Option (Series height)
  column : Series height
  interaction : factor.type = .interaction
  two_operands : 2 ≤ factor.operand_factor_ids.length
  operands_nodup : factor.operand_factor_ids.Nodup
  not_self : factor.id ∉ factor.operand_factor_ids
  is_cross : cross factor by_id resolved = .ok column

def Crossing.levels (c : Crossing) (i : Fin c.height) : List (Option String) :=
  rowLevels c.factor c.resolved i

/-- The label of a row is that of another exactly where the levels are. -/
def Crossing.TellsApart (c : Crossing) (i j : Fin c.height) : Prop :=
  c.column.text i = c.column.text j ↔ c.levels i = c.levels j

theorem Crossing.text_eq (c : Crossing) (i : Fin c.height) :
    c.column.text i = crossLabel (c.levels i) :=
  text_of_cross c.is_cross i

theorem Crossing.length_levels (c : Crossing) (i : Fin c.height) :
    (c.levels i).length = c.factor.operand_factor_ids.length := by
  rw [levels, rowLevels, List.length_map]

def pairFrame (levels others : List (Option String)) (id : UUID) : Option (Series 2) :=
  some ⟨.string, fun i => if i = 0 then levels.getD id none else others.getD id none⟩

theorem operand_slug_ok : '[' ∉ "operand".toList := by decide

theorem cross_slug_ok : '[' ∉ "cross".toList := by decide

def operandFactor (id : UUID) : Factor :=
  { id := id, slug := "operand", type := .identity, slug_ok := operand_slug_ok }

/-- The cross of the columns of the first `n` factors. -/
def crossFactor (n : ℕ) : Factor :=
  { id := n, slug := "cross", type := .interaction, operand_factor_ids := List.range n,
    slug_ok := cross_slug_ok }

theorem map_range_getD (levels : List (Option String)) :
    (List.range levels.length).map (fun k => levels.getD k none) = levels := by
  refine List.ext_getElem (by simp) fun k h _ => ?_
  simp at h
  simp [h]

theorem exists_crossing {levels others : List (Option String)} (hlen : 2 ≤ levels.length)
    (hothers : others.length = levels.length) :
    ∃ (c : Crossing) (i j : Fin c.height), c.levels i = levels ∧ c.levels j = others := by
  have hparts : (List.range levels.length).mapM
      (crossPart (crossFactor levels.length) (some ∘ operandFactor) (pairFrame levels others)) =
        .ok ((List.range levels.length).map fun id (i : Fin 2) =>
          if i = 0 then levels.getD id none else others.getD id none) := by
    rw [mapM_eq_ok, List.forall₂_map_right_iff, List.forall₂_same]
    intro id _
    exact crossPart_eq_ok.mpr ⟨⟨operandFactor id, rfl, nofun⟩, _, rfl, rfl, rfl⟩
  obtain ⟨column, hcolumn⟩ : ∃ column,
      cross (crossFactor levels.length) (some ∘ operandFactor) (pairFrame levels others) =
        .ok column := by
    unfold cross
    rw [show (crossFactor levels.length).operand_factor_ids = List.range levels.length from rfl,
      hparts]
    obtain ⟨n, hn⟩ : ∃ n, levels.length = n + 1 := ⟨levels.length - 1, by omega⟩
    rw [hn, List.range_succ_eq_map]
    exact ⟨_, rfl⟩
  refine ⟨⟨2, crossFactor levels.length, some ∘ operandFactor, pairFrame levels others, column, rfl,
    by simpa [crossFactor] using hlen, by simpa [crossFactor] using List.nodup_range,
    by simp [crossFactor], hcolumn⟩, 0, 1, ?_, ?_⟩
  · exact map_range_getD levels
  · refine Eq.trans ?_ (map_range_getD others)
    rw [hothers]
    rfl

/-- A cell shares its label with no other cell, in any cross of any frame, exactly when its levels
are legible. -/
theorem tellsApart_iff_legible (levels : List (Option String)) (hlen : 2 ≤ levels.length) :
    (∀ (c : Crossing) (i : Fin c.height), c.levels i = levels → ∀ j, c.TellsApart i j) ↔
      Legible levels := by
  constructor
  · intro hall
    by_contra h
    obtain ⟨others, hothers, hlabel, hne⟩ := exists_other_cell hlen h
    obtain ⟨c, i, j, hi, hj⟩ := exists_crossing hlen hothers
    have happart := (hall c i hi j).mp (by rw [c.text_eq, c.text_eq, hi, hj, hlabel])
    rw [hi, hj] at happart
    exact hne happart.symm
  · rintro h c i rfl j
    constructor
    · intro htext
      rw [c.text_eq, c.text_eq] at htext
      have hj : (c.levels j).length = (c.levels i).length := by
        rw [c.length_levels, c.length_levels]
      exact (eq_of_crossLabel hlen h hj htext.symm).symm
    · intro hlevels
      rw [c.text_eq, c.text_eq, hlevels]

theorem tellsApart_iff_legible_north :
    (∀ (c : Crossing) (i : Fin c.height), c.levels i = [some "North", some "Flat"] →
      ∀ j, c.TellsApart i j) ↔ Legible [some "North", some "Flat"] :=
  tellsApart_iff_legible _ (by decide)

/-- A group named with the separator shares its label with a cell of other groups. -/
theorem not_tellsApart_groups :
    ∃ (c : Crossing) (i j : Fin c.height), c.levels i = [some "North | East", some "Flat"] ∧
      c.levels j = [some "North", some "East | Flat"] ∧ ¬ c.TellsApart i j := by
  obtain ⟨c, i, j, hi, hj⟩ := exists_crossing
    (show 2 ≤ [some "North | East", some "Flat"].length by decide)
    (show [some "North", some "East | Flat"].length = _ from rfl)
  refine ⟨c, i, j, hi, hj, fun h => ?_⟩
  have hsame := h.mp (by rw [c.text_eq, c.text_eq, hi, hj]; decide)
  rw [hi, hj] at hsame
  exact absurd hsame (by decide)

end GiPricing.Factors
