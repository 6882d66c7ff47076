import GiPricing.RateTables.Truthful
import GiPricing.RateTables.Complete

/-! # Manual edits

The edits of one request are applied together or not at all. Which of them are reported is decided
one by one, each against the edits before it that were accepted.
-/

namespace GiPricing.RateTables

open Failure

variable {engine : Engine} {v : RateTableVersion} {rows cells edits : List CellRow}
  {row : CellRow} {base : List (Option KeyTuple)}

/-! ## One edit -/

def target (v : RateTableVersion) (base : List (Option KeyTuple)) (row : CellRow) : Option ℕ :=
  (keyOf v.keyNames row).bind (positionOf base)

/-- The edit carries exactly the declared columns. -/
def FullRow (v : RateTableVersion) (row : CellRow) : Prop :=
  row.keys.toFinset = (v.value.name :: v.keyNames).toFinset

/-- The column refuses the value of the edit. -/
def Refused (engine : Engine) (v : RateTableVersion) (row : CellRow) : Prop :=
  ∃ key issue, keyOf v.keyNames row = some key ∧ valueIssue engine v.value key row = some issue

/-- The edit is wrong whatever the other edits are: its columns, its key or its value. -/
def Faulty (engine : Engine) (v : RateTableVersion) (base : List (Option KeyTuple)) (row : CellRow) :
    Prop :=
  ¬ FullRow v row ∨ target v base row = none ∨ Refused engine v row

theorem target_eq_some {place : ℕ} : target v base row = some place ↔
    ∃ key, keyOf v.keyNames row = some key ∧ positionOf base key = some place :=
  Option.bind_eq_some_iff

theorem editTarget_eq_ok {replaced : List (ℕ × String)} {place : ℕ} {text : String} :
    editTarget engine v base replaced row = .ok (place, text) ↔
      ¬ Faulty engine v base row ∧ target v base row = some place ∧
        place ∉ replaced.map Prod.fst ∧ row.get? v.value.name = some text := by
  simp only [editTarget, bind_eq_ok, ensure_eq_ok, require_eq_ok, exists_const]
  constructor
  · rintro ⟨hfull, key, hkey, at_, hat, hfresh, h⟩
    split at h
    · cases h
    · rename_i hissue
      obtain ⟨_, htext, he⟩ := map_eq_ok.mp h
      cases he
      have htarget := target_eq_some.mpr ⟨key, hkey, hat⟩
      refine ⟨?_, htarget, hfresh, require_eq_ok.mp htext⟩
      rintro (hnot | hnone | ⟨key', issue, hkey', hsome⟩)
      · exact hnot hfull
      · rw [htarget] at hnone
        cases hnone
      · obtain rfl := Option.some.inj (hkey.symm.trans hkey')
        rw [hissue] at hsome
        cases hsome
  · rintro ⟨hfaulty, htarget, hfresh, htext⟩
    obtain ⟨key, hkey, hat⟩ := target_eq_some.mp htarget
    refine ⟨by_contra fun hnot => hfaulty (Or.inl hnot), key, hkey, place, hat, hfresh, ?_⟩
    split
    · rename_i issue hissue
      exact absurd (Or.inr (Or.inr ⟨key, issue, hkey, hissue⟩)) hfaulty
    · rw [htext]
      rfl

theorem FullRow.value (h : FullRow v row) : ∃ text, row.get? v.value.name = some text := by
  have hmem : v.value.name ∈ row.keys := by
    rw [← List.mem_toFinset, h]
    simp
  exact Option.ne_none_iff_exists'.mp fun hnone => row.get?_eq_none.mp hnone hmem

theorem exists_editTarget_ok {replaced : List (ℕ × String)} :
    (∃ edit, editTarget engine v base replaced row = .ok edit) ↔
      ¬ Faulty engine v base row ∧ ∀ place ∈ replaced.map Prod.fst, target v base row ≠ some place := by
  constructor
  · rintro ⟨⟨place, text⟩, h⟩
    obtain ⟨hfaulty, htarget, hfresh, -⟩ := editTarget_eq_ok.mp h
    refine ⟨hfaulty, fun place' hplace' he => ?_⟩
    obtain rfl := Option.some.inj (htarget.symm.trans he)
    exact hfresh hplace'
  · rintro ⟨hfaulty, hfresh⟩
    obtain ⟨text, htext⟩ := FullRow.value (by_contra fun hnot => hfaulty (Or.inl hnot))
    obtain ⟨place, hplace⟩ : ∃ place, target v base row = some place :=
      Option.ne_none_iff_exists'.mp fun hnone => hfaulty (Or.inr (Or.inl hnone))
    exact ⟨(place, text), editTarget_eq_ok.mpr ⟨hfaulty, hplace, fun hmem =>
      hfresh place hmem hplace, htext⟩⟩

/-! ## The edits in turn -/

theorem collectEdits_append {before after : List (ℕ × CellRow)} {replaced issues : List (ℕ × String)} :
    collectEdits engine v base (before ++ after) replaced issues =
      collectEdits engine v base after (collectEdits engine v base before replaced issues).1
        (collectEdits engine v base before replaced issues).2 := by
  induction before generalizing replaced issues with
  | nil => rfl
  | cons edit before ih =>
    rw [List.cons_append, collectEdits, collectEdits]
    cases editTarget engine v base replaced edit.2 with
    | ok target => exact ih
    | error code => exact ih

def collected (engine : Engine) (v : RateTableVersion) (base : List (Option KeyTuple))
    (edits : List CellRow) : List (ℕ × String) × List (ℕ × String) :=
  collectEdits engine v base (edits.zipIdx.map Prod.swap) [] []

/-- The index is one that an issue is reported at. -/
def Reported (state : List (ℕ × String) × List (ℕ × String)) (i : ℕ) : Prop :=
  i ∈ state.2.map Prod.fst

/-- What has been collected of the edits so far. -/
structure Collected (engine : Engine) (v : RateTableVersion) (base : List (Option KeyTuple))
    (edits : List CellRow) (state : List (ℕ × String) × List (ℕ × String)) : Prop where
  bounded : ∀ i, Reported state i → i < edits.length
  reported : ∀ i row, edits[i]? = some row → (Reported state i ↔ Faulty engine v base row ∨
    ∃ j < i, ∃ earlier, edits[j]? = some earlier ∧ ¬ Reported state j ∧
      target v base earlier = target v base row)
  replaced : ∀ place text, (place, text) ∈ state.1 ↔ ∃ i row, edits[i]? = some row ∧
    ¬ Reported state i ∧ target v base row = some place ∧ row.get? v.value.name = some text
  nodup : (state.1.map Prod.fst).Nodup

theorem collected_append : collected engine v base (edits ++ [row]) =
    collectEdits engine v base [(edits.length, row)] (collected engine v base edits).1
      (collected engine v base edits).2 := by
  rw [collected, List.zipIdx_append, List.map_append, collectEdits_append]
  simp [collected]

/-- One more edit: an accepted one is added to what is replaced, another one is reported. -/
theorem Collected.append {state : List (ℕ × String) × List (ℕ × String)}
    (h : Collected engine v base edits state) (row : CellRow) :
    Collected engine v base (edits ++ [row])
      (collectEdits engine v base [(edits.length, row)] state.1 state.2) := by
  have hold : ∀ i row', i < edits.length → ((edits ++ [row])[i]? = some row' ↔ edits[i]? = some row') :=
    fun i row' hi => by rw [List.getElem?_append_left hi]
  have hlast : (edits ++ [row])[edits.length]? = some row := by simp
  have hindex : ∀ {i row'}, (edits ++ [row])[i]? = some row' →
      i < edits.length ∧ edits[i]? = some row' ∨ i = edits.length ∧ row' = row := by
    intro i row' hrow
    rcases lt_or_ge i edits.length with hi | hi
    · exact Or.inl ⟨hi, (hold i row' hi).mp hrow⟩
    · rw [List.getElem?_append_right hi] at hrow
      obtain ⟨hi', he⟩ := List.getElem?_eq_some_iff.mp hrow
      simp only [List.length_singleton] at hi'
      obtain rfl : i = edits.length := by omega
      simp at he
      exact Or.inr ⟨rfl, he.symm⟩
  have hnew : ¬ Reported state edits.length := fun hr => absurd (h.bounded _ hr) (lt_irrefl _)
  -- The places taken are those of the accepted edits.
  have htaken : (∃ place ∈ state.1.map Prod.fst, target v base row = some place) ↔
      ∃ j < edits.length, ∃ earlier, (edits ++ [row])[j]? = some earlier ∧ ¬ Reported state j ∧
        target v base earlier = target v base row ∧ target v base row ≠ none := by
    constructor
    · rintro ⟨place, hplace, htarget⟩
      obtain ⟨⟨place', text⟩, hmem, rfl⟩ := List.mem_map.mp hplace
      obtain ⟨j, earlier, hj, hr, ht, -⟩ := (h.replaced place' text).mp hmem
      have hlt : j < edits.length := (List.getElem?_eq_some_iff.mp hj).1
      exact ⟨j, hlt, earlier, (hold j earlier hlt).mpr hj, hr, ht.trans htarget.symm, by
        rw [htarget]; rintro ⟨⟩⟩
    · rintro ⟨j, hlt, earlier, hj, hr, ht, hne⟩
      obtain ⟨place, hplace⟩ := Option.ne_none_iff_exists'.mp hne
      have hj' := (hold j earlier hlt).mp hj
      have hfaulty : ¬ Faulty engine v base earlier := fun hf =>
        hr ((h.reported j earlier hj').mpr (Or.inl hf))
      obtain ⟨text, htext⟩ := FullRow.value (by_contra fun hnot => hfaulty (Or.inl hnot))
      exact ⟨place, List.mem_map.mpr ⟨(place, text), (h.replaced place text).mpr
        ⟨j, earlier, hj', hr, ht.trans hplace, htext⟩, rfl⟩, hplace⟩
  rw [collectEdits]
  cases hedit : editTarget engine v base state.1 row with
  | ok edit =>
    obtain ⟨place, text⟩ := edit
    change Collected engine v base (edits ++ [row]) (state.1 ++ [(place, text)], state.2)
    obtain ⟨hfaulty, htarget, hfresh, htext⟩ := editTarget_eq_ok.mp hedit
    have hfree : ¬ ∃ place ∈ state.1.map Prod.fst, target v base row = some place := by
      rintro ⟨place', hplace', he⟩
      obtain rfl := Option.some.inj (htarget.symm.trans he)
      exact hfresh hplace'
    refine ⟨fun i hi => ?_, fun i row' hrow => ?_, fun place' text' => ?_, ?_⟩
    · have hlt := h.bounded i hi
      simp
      omega
    · rcases hindex hrow with ⟨hlt, hrow'⟩ | ⟨rfl, rfl⟩
      · rw [show Reported (state.1 ++ [(place, text)], state.2) i ↔ Reported state i from Iff.rfl,
          h.reported i row' hrow']
        refine or_congr_right (exists_congr fun j => and_congr_right fun hj => exists_congr fun _ => ?_)
        rw [hold j _ (by omega)]
        rfl
      · refine iff_of_false hnew ?_
        rintro (hf | ⟨j, hj, earlier, hearlier, hr, ht⟩)
        · exact hfaulty hf
        · exact hfree (htaken.mpr ⟨j, hj, earlier, hearlier, hr, ht, by rw [htarget]; rintro ⟨⟩⟩)
    · rw [List.mem_append, h.replaced, List.mem_singleton]
      constructor
      · rintro (⟨i, row', hrow, hr, ht, hx⟩ | he)
        · have hlt : i < edits.length := (List.getElem?_eq_some_iff.mp hrow).1
          exact ⟨i, row', (hold i row' hlt).mpr hrow, hr, ht, hx⟩
        · cases he
          exact ⟨edits.length, row, hlast, hnew, htarget, htext⟩
      · rintro ⟨i, row', hrow, hr, ht, hx⟩
        rcases hindex hrow with ⟨hlt, hrow'⟩ | ⟨rfl, rfl⟩
        · exact Or.inl ⟨i, row', hrow', hr, ht, hx⟩
        · right
          rw [htarget, Option.some.injEq] at ht
          rw [htext, Option.some.injEq] at hx
          rw [ht, hx]
    · rw [List.map_append, List.nodup_append]
      refine ⟨h.nodup, List.nodup_singleton _, ?_⟩
      rintro a ha b hb rfl
      simp only [List.map_cons, List.map_nil, List.mem_singleton] at hb
      exact hfresh (hb ▸ ha)
  | error code =>
    change Collected engine v base (edits ++ [row]) (state.1, state.2 ++ [(edits.length, code)])
    have hrejected : Faulty engine v base row ∨
        ∃ place ∈ state.1.map Prod.fst, target v base row = some place := by
      by_contra hnot
      rw [not_or] at hnot
      obtain ⟨edit, hok⟩ := (exists_editTarget_ok).mpr
        ⟨hnot.1, fun place hplace he => hnot.2 ⟨place, hplace, he⟩⟩
      rw [hedit] at hok
      cases hok
    have hreports : ∀ i, Reported (state.1, state.2 ++ [(edits.length, code)]) i ↔
        Reported state i ∨ i = edits.length := by
      intro i
      simp [Reported]
    refine ⟨fun i hi => ?_, fun i row' hrow => ?_, fun place' text' => ?_, h.nodup⟩
    · rw [List.length_append, List.length_singleton]
      rcases (hreports i).mp hi with hi | rfl
      · have hlt := h.bounded i hi
        omega
      · omega
    · rcases hindex hrow with ⟨hlt, hrow'⟩ | ⟨rfl, rfl⟩
      · rw [hreports, or_iff_left (by omega), h.reported i row' hrow']
        refine or_congr_right (exists_congr fun j => and_congr_right fun hj => exists_congr fun _ => ?_)
        rw [hold j _ (by omega), hreports, or_iff_left (show ¬ j = edits.length by omega)]
      · rw [hreports]
        refine iff_of_true (Or.inr rfl) ?_
        rcases hrejected with hf | htake
        · exact Or.inl hf
        · obtain ⟨j, hj, earlier, hearlier, hr, ht, -⟩ := htaken.mp htake
          refine Or.inr ⟨j, hj, earlier, hearlier, ?_, ht⟩
          rw [hreports]
          rintro (hr' | he)
          · exact hr hr'
          · omega
    · rw [h.replaced]
      constructor
      · rintro ⟨i, row', hrow, hr, ht, hx⟩
        have hlt : i < edits.length := (List.getElem?_eq_some_iff.mp hrow).1
        refine ⟨i, row', (hold i row' hlt).mpr hrow, ?_, ht, hx⟩
        rw [hreports]
        rintro (hr' | he)
        · exact hr hr'
        · omega
      · rintro ⟨i, row', hrow, hr, ht, hx⟩
        rw [hreports, not_or] at hr
        rcases hindex hrow with ⟨hlt, hrow'⟩ | ⟨rfl, rfl⟩
        · exact ⟨i, row', hrow', hr.1, ht, hx⟩
        · exact absurd rfl hr.2

theorem collected_spec (engine : Engine) (v : RateTableVersion) (base : List (Option KeyTuple))
    (edits : List CellRow) : Collected engine v base edits (collected engine v base edits) := by
  induction edits using List.reverseRecOn with
  | nil =>
    refine ⟨fun i hi => ?_, fun i row hrow => ?_, fun place text => ?_, List.nodup_nil⟩
    · cases hi
    · cases hrow
    · constructor
      · intro hmem
        cases hmem
      · rintro ⟨i, row, hrow, -⟩
        cases hrow
  | append_singleton edits row ih =>
    rw [collected_append]
    exact ih.append row

/-! ## A request -/

/-- The place of the key of each edit has the value of the edit, every other row is the row of the
base, and the keys are those of the base in their order. -/
structure AllApplied (v : RateTableVersion) (rows edits cells : List CellRow) : Prop where
  keys : cells.map (keyOf v.keyNames) = rows.map (keyOf v.keyNames)
  edited : ∀ edit ∈ edits, ∃ place row text,
    target v (rows.map (keyOf v.keyNames)) edit = some place ∧ rows[place]? = some row ∧
      edit.get? v.value.name = some text ∧ cells[place]? = some (row.insert v.value.name text)
  others : ∀ place row, rows[place]? = some row →
    (∀ edit ∈ edits, target v (rows.map (keyOf v.keyNames)) edit ≠ some place) →
    cells[place]? = some row

/-- An edit of the request has the key of an earlier one. -/
def Repeats (v : RateTableVersion) (base : List (Option KeyTuple)) (edits : List CellRow) (i : ℕ)
    (row : CellRow) : Prop :=
  ∃ j < i, ∃ earlier, edits[j]? = some earlier ∧ target v base earlier = target v base row ∧
    target v base row ≠ none

/-- Every faulty edit is reported, and every edit of a key that an edit without a report has before
it; nothing else is reported than edits that are faulty or repeat a key. -/
structure AllReported (engine : Engine) (v : RateTableVersion) (base : List (Option KeyTuple))
    (edits : List CellRow) (reported : ℕ → Prop) : Prop where
  faulty : ∀ i row, edits[i]? = some row → Faulty engine v base row → reported i
  repeated : ∀ i row, edits[i]? = some row → (∃ j < i, ∃ earlier, edits[j]? = some earlier ∧
    ¬ reported j ∧ target v base earlier = target v base row) → reported i
  sound : ∀ i, reported i → ∃ row, edits[i]? = some row ∧
    (Faulty engine v base row ∨ Repeats v base edits i row)

/-- Some edit of the request is faulty or repeats a key. -/
def SomeWrong (engine : Engine) (v : RateTableVersion) (base : List (Option KeyTuple))
    (edits : List CellRow) : Prop :=
  ∃ i row, edits[i]? = some row ∧ (Faulty engine v base row ∨ Repeats v base edits i row)

theorem Collected.allReported {state : List (ℕ × String) × List (ℕ × String)}
    (h : Collected engine v base edits state) :
    AllReported engine v base edits (Reported state) where
  faulty i row hrow hf := (h.reported i row hrow).mpr (Or.inl hf)
  repeated i row hrow hr := (h.reported i row hrow).mpr (Or.inr hr)
  sound i hi := by
    have hlt := h.bounded i hi
    have hrow : edits[i]? = some edits[i] := List.getElem?_eq_getElem hlt
    refine ⟨edits[i], hrow, ?_⟩
    rcases (h.reported i _ hrow).mp hi with hf | ⟨j, hj, earlier, hearlier, -, ht⟩
    · exact Or.inl hf
    · by_cases hnone : target v base edits[i] = none
      · exact Or.inl (Or.inr (Or.inl hnone))
      · exact Or.inr ⟨j, hj, earlier, hearlier, ht, hnone⟩

theorem Collected.not_someWrong {state : List (ℕ × String) × List (ℕ × String)}
    (h : Collected engine v base edits state) (hnone : ∀ i, ¬ Reported state i) :
    ¬ SomeWrong engine v base edits := by
  rintro ⟨i, row, hrow, hf | ⟨j, hj, earlier, hearlier, ht, -⟩⟩
  · exact hnone i ((h.reported i row hrow).mpr (Or.inl hf))
  · exact hnone i ((h.reported i row hrow).mpr (Or.inr ⟨j, hj, earlier, hearlier, hnone j, ht⟩))

theorem Collected.allApplied {state : List (ℕ × String) × List (ℕ × String)}
    (h : Collected engine v (rows.map (keyOf v.keyNames)) edits state)
    (hfits : ∀ edit ∈ state.1, Fits engine v rows edit) (hnone : ∀ i, ¬ Reported state i) :
    AllApplied v rows edits (rows.zipIdx.map (replaceAt v.value.name state.1)) where
  keys := map_keyOf_congr (forall₂_replaceAt hfits) (List.Subset.refl _)
  edited edit hedit := by
    obtain ⟨i, hi⟩ := List.mem_iff_getElem?.mp hedit
    have hfaulty : ¬ Faulty engine v (rows.map (keyOf v.keyNames)) edit := fun hf =>
      hnone i ((h.reported i edit hi).mpr (Or.inl hf))
    obtain ⟨text, htext⟩ := FullRow.value (by_contra fun hnot => hfaulty (Or.inl hnot))
    obtain ⟨place, hplace⟩ := Option.ne_none_iff_exists'.mp fun hno =>
      hfaulty (Or.inr (Or.inl hno))
    have hmem : (place, text) ∈ state.1 :=
      (h.replaced place text).mpr ⟨i, edit, hi, hnone i, hplace, htext⟩
    obtain ⟨key, -, hposition⟩ := target_eq_some.mp hplace
    have hbase := positionOf_eq_some hposition
    rw [List.getElem?_map, Option.map_eq_some_iff] at hbase
    obtain ⟨row, hrow, -⟩ := hbase
    refine ⟨place, row, text, hplace, hrow, htext, ?_⟩
    rw [List.getElem?_map, List.getElem?_zipIdx, hrow]
    simp only [Option.map_some, replaceAt, zero_add,
      (Dataflow.lookup_eq_some_of_nodup h.nodup).mpr hmem]
  others place row hrow hother := by
    have hlookup : state.1.lookup place = none := by
      rw [Option.eq_none_iff_forall_not_mem]
      intro text htext
      have hmem := (Dataflow.lookup_eq_some_of_nodup h.nodup).mp htext
      obtain ⟨i, edit, hedit, -, htarget, -⟩ := (h.replaced place text).mp hmem
      exact hother edit (List.mem_of_getElem? hedit) htarget
    rw [List.getElem?_map, List.getElem?_zipIdx, hrow]
    simp only [Option.map_some, replaceAt, zero_add, hlookup]

/-- Edits of a base whose rows have their keys are all applied, where none of them is wrong, or there
are issues and no cells, where some edit is. -/
theorem edits_all_or_nothing (hcells : v.cells = .rows rows)
    (hkeyed : ∀ row ∈ rows, ∃ key, keyOf v.keyNames row = some key) :
    (∃ cells, applyCellEdits engine v edits = .ok cells ∧ AllApplied v rows edits cells ∧
      ¬ SomeWrong engine v (rows.map (keyOf v.keyNames)) edits) ∨
    ∃ issues, applyCellEdits engine v edits = .error (.editIssues issues) ∧
      SomeWrong engine v (rows.map (keyOf v.keyNames)) edits ∧
      AllReported engine v (rows.map (keyOf v.keyNames)) edits fun i => i ∈ issues.map Prod.fst := by
  have hspec := collected_spec engine v (rows.map (keyOf v.keyNames)) edits
  obtain ⟨keys, hkeys⟩ : ∃ keys, rows.mapM (baseKey v) = .ok keys := by
    refine exists_mapM_ok fun row hrow => ?_
    obtain ⟨key, hkey⟩ := hkeyed row hrow
    exact exists_mapM_ok fun name hname =>
      (get?_of_keyOf hkey hname).imp fun text htext => require_eq_ok.mpr htext
  have happly : applyCellEdits engine v edits =
      ensure ((collected engine v (rows.map (keyOf v.keyNames)) edits).2 = [])
        (.editIssues (collected engine v (rows.map (keyOf v.keyNames)) edits).2) >>= fun _ =>
      .ok (rows.zipIdx.map (replaceAt v.value.name
        (collected engine v (rows.map (keyOf v.keyNames)) edits).1)) := by
    rw [applyCellEdits, rowsOf_eq_ok.mpr hcells]
    change (rows.mapM (baseKey v) >>= _) = _
    rw [hkeys]
    rfl
  rw [happly]
  by_cases hissues : (collected engine v (rows.map (keyOf v.keyNames)) edits).2 = []
  · left
    have hnone : ∀ i, ¬ Reported (collected engine v (rows.map (keyOf v.keyNames)) edits) i := by
      intro i hi
      rw [Reported, hissues] at hi
      cases hi
    refine ⟨_, bind_eq_ok.mpr ⟨⟨⟩, ensure_eq_ok.mpr hissues, rfl⟩, ?_, hspec.not_someWrong hnone⟩
    exact hspec.allApplied (collectEdits_fits (by rintro edit ⟨⟩)) hnone
  · right
    obtain ⟨issue, hissue⟩ := List.exists_mem_of_ne_nil _ hissues
    obtain ⟨row, hrow, hwrong⟩ := hspec.allReported.sound issue.1 (List.mem_map_of_mem hissue)
    exact ⟨_, bind_eq_error.mpr (Or.inl (ensure_eq_error.mpr ⟨hissues, rfl⟩)),
      ⟨issue.1, row, hrow, hwrong⟩, hspec.allReported⟩

theorem levelTable_keyed : ∀ row ∈ [levelRow "young" "1", levelRow "old" "2"],
    ∃ key, keyOf (levelTable "1" "2").keyNames row = some key := by
  intro row hrow
  simp only [List.mem_cons, List.not_mem_nil, or_false] at hrow
  rcases hrow with rfl | rfl
  · exact ⟨["young"], rfl⟩
  · exact ⟨["old"], rfl⟩

theorem levelTable_edited :
    (∃ cells, applyCellEdits numberEngine (levelTable "1" "2") [levelRow "old" "3"] = .ok cells ∧
      AllApplied (levelTable "1" "2") [levelRow "young" "1", levelRow "old" "2"]
        [levelRow "old" "3"] cells ∧
      ¬ SomeWrong numberEngine (levelTable "1" "2") [some ["young"], some ["old"]]
        [levelRow "old" "3"]) ∨
    ∃ issues, applyCellEdits numberEngine (levelTable "1" "2") [levelRow "old" "3"] =
        .error (.editIssues issues) ∧
      SomeWrong numberEngine (levelTable "1" "2") [some ["young"], some ["old"]]
        [levelRow "old" "3"] ∧
      AllReported numberEngine (levelTable "1" "2") [some ["young"], some ["old"]]
        [levelRow "old" "3"] fun i => i ∈ issues.map Prod.fst :=
  @edits_all_or_nothing numberEngine (levelTable "1" "2")
    [levelRow "young" "1", levelRow "old" "2"] [levelRow "old" "3"] rfl levelTable_keyed

/-- An edit of a known key and an admitted value that carries a column more is refused. -/
theorem extra_column_refused : ¬ ∀ engine v rows edits, v.cells = .rows rows →
    (∀ row ∈ rows, ∃ key, keyOf v.keyNames row = some key) →
    ((∃ issues, applyCellEdits engine v edits = .error (.editIssues issues)) ↔
      ∃ i row, edits[i]? = some row ∧ (target v (rows.map (keyOf v.keyNames)) row = none ∨
        Refused engine v row ∨ Repeats v (rows.map (keyOf v.keyNames)) edits i row)) := by
  intro h
  have herror : applyCellEdits numberEngine (levelTable "1" "2")
      [(levelRow "old" "3").insert "note" "checked"] = .error (.editIssues [(0, "EDIT_COLUMNS")]) := by
    decide
  obtain ⟨i, row, hrow, hwrong⟩ := (h numberEngine (levelTable "1" "2") _
    [(levelRow "old" "3").insert "note" "checked"] rfl levelTable_keyed).mp ⟨_, herror⟩
  obtain ⟨hi, he⟩ := List.getElem?_eq_some_iff.mp hrow
  simp only [List.length_singleton] at hi
  obtain rfl : i = 0 := by omega
  simp only [List.getElem_cons_zero] at he
  subst he
  rcases hwrong with hnone | ⟨key, issue, hkey, hissue⟩ | ⟨j, hj, -⟩
  · exact absurd hnone (by decide)
  · obtain rfl := Option.some.inj (hkey.symm.trans (show _ = some ["old"] by decide))
    have hnone : valueIssue numberEngine (levelTable "1" "2").value ["old"]
        ((levelRow "old" "3").insert "note" "checked") = none := by decide
    cases hnone.symm.trans hissue
  · omega

end GiPricing.RateTables
