import GiPricing.Data.Recipe
import GiPricing.Failure.Lists
import GiPricing.Regression.Log

/-! # The rows of a recipe

Every source row of a completed recipe is quarantined once with its own text, dropped by a step that
filters, or kept as one working row, unless the recipe writes the working column.
-/

namespace GiPricing.Data.Recipe

open Failure

variable {V D : Type} [DecidableEq V] {p : Library V D} {op : Operation V} {frame : Frame V D}

/-- The step assigns the column, or renames it. -/
def Operation.Writes (p : Library V D) (c : String) : Operation V → Prop
  | rename columns => c ∈ columns.keys ∨ c ∈ columns.values
  | cast columns => ∃ name ∈ columns.keys, p.selects name c = true
  | trimWhitespace columns | normaliseCase columns _ => ∃ name ∈ columns, p.selects name c = true
  | parseDate column _ | mapValues column _ | fillNull column _ | deriveExpression column _
  | pseudonymise column _ => column = c
  | filterRows _ | deduplicate _ | other _ => False

/-- The steps that drop rows by what they declare. -/
def Filters (kind : String) : Prop := kind = "filter_rows" ∨ kind = "deduplicate"

/-- The step parses the column. -/
def Operation.Parses (c : String) : Operation V → Prop
  | cast columns => c ∈ columns.keys
  | parseDate column _ => column = c
  | _ => False

/-- A step that parses leaves a null where the row had a value. -/
def Nulls (p : Library V D) (op : Operation V) (before after : String → V) : Prop :=
  ∃ c, op.Parses c ∧ p.isNull (before c) = false ∧ p.isNull (after c) = true

def ids (frame : Frame V D) : List V := frame.rows.map fun row => row sourceRow

/-! ## What a step does to the working column -/

omit [DecidableEq V] in
theorem ids_withColumns {exprs : List (String × Elementwise V)}
    (h : ∀ e ∈ exprs, e.1 ≠ sourceRow) : ids (withColumns p frame exprs) = ids frame := by
  unfold ids withColumns
  rw [List.map_map]
  apply List.map_congr_left
  intro row _
  have hnone : (exprs.find? fun e => e.1 = sourceRow) = none :=
    List.find?_eq_none.mpr fun e he => by simpa using h e he
  rw [Function.comp_apply, assign, hnone]

omit [DecidableEq V] in
theorem ids_rename {columns : Dict String} (h : sourceRow ∉ columns.values) :
    ids (rename frame columns) = ids frame := by
  unfold ids rename
  rw [List.map_map]
  apply List.map_congr_left
  intro row _
  have hnone : (columns.entries.find? fun e => e.2 = sourceRow) = none := by
    apply List.find?_eq_none.mpr
    intro e he heq
    apply h
    rw [← of_decide_eq_true heq]
    exact List.mem_map_of_mem he
  simp only [Function.comp_apply, hnone]

omit [DecidableEq V] in
theorem each_ne {selected : List String} {e : Elementwise V}
    (h : ∀ name ∈ selected, ¬ p.selects name sourceRow = true) :
    ∀ x ∈ each p frame selected e, x.1 ≠ sourceRow := by
  intro x hx heq
  obtain ⟨c, hc, rfl⟩ := List.mem_map.mp hx
  obtain ⟨name, hname, hselects⟩ := List.any_eq_true.mp (List.mem_filter.mp hc).2
  apply h name hname
  rw [← heq]
  exact hselects

theorem unique_sublist (key : (String → V) → List V) (seen : List (List V))
    (rows : List (String → V)) : (unique key seen rows).Sublist rows := by
  induction rows generalizing seen with
  | nil => exact List.Sublist.refl _
  | cons row rows ih =>
    rw [unique]
    split_ifs
    · exact (ih seen).cons _
    · exact (ih _).cons_cons _

omit [DecidableEq V] in
theorem accepted_eq_ok {before after result : Frame V D}
    (h : (do ensure (p.accepts op before) .raised; return after : Except RecipeError _) =
      .ok result) : result = after := by
  obtain ⟨-, -, h⟩ := bind_eq_ok.mp h
  exact (pure_eq_ok.mp h).symm

/-- A step keeps a part of the rows with their identity, and all of them unless it filters. -/
theorem applyStep_ids {after : Frame V D} (hwrites : ¬ op.Writes p sourceRow)
    (h : applyStep p frame op = .ok after) :
    (ids after).Sublist (ids frame) ∧ (¬ Filters op.kind → ids after = ids frame) := by
  suffices hcases : ids after = ids frame ∨
      Filters op.kind ∧ (ids after).Sublist (ids frame) by
    rcases hcases with heq | ⟨hfilters, hsub⟩
    · exact ⟨heq ▸ List.Sublist.refl _, fun _ => heq⟩
    · exact ⟨hsub, fun hnot => absurd hfilters hnot⟩
  cases op with
  | rename columns =>
    left
    rw [accepted_eq_ok h]
    exact ids_rename fun hmem => hwrites (Or.inr hmem)
  | cast columns =>
    left
    obtain ⟨-, -, h⟩ := bind_eq_ok.mp h
    rw [accepted_eq_ok h]
    apply ids_withColumns
    intro x hx
    obtain ⟨e, he, hx⟩ := List.mem_flatMap.mp hx
    apply each_ne _ x hx
    rintro name hname hselects
    obtain rfl := List.mem_singleton.mp hname
    exact hwrites ⟨e.1, List.mem_map_of_mem he, hselects⟩
  | parseDate column format =>
    left
    rw [accepted_eq_ok h]
    exact ids_withColumns (List.forall_mem_singleton.mpr hwrites)
  | trimWhitespace columns =>
    left
    rw [accepted_eq_ok h]
    exact ids_withColumns (each_ne fun name hname hselects => hwrites ⟨name, hname, hselects⟩)
  | normaliseCase columns upper =>
    left
    rw [accepted_eq_ok h]
    exact ids_withColumns (each_ne fun name hname hselects => hwrites ⟨name, hname, hselects⟩)
  | mapValues column mapping =>
    left
    rw [accepted_eq_ok h]
    exact ids_withColumns (List.forall_mem_singleton.mpr hwrites)
  | fillNull column value =>
    left
    rw [accepted_eq_ok h]
    exact ids_withColumns (List.forall_mem_singleton.mpr hwrites)
  | deriveExpression column expression =>
    left
    rw [accepted_eq_ok h]
    exact ids_withColumns (List.forall_mem_singleton.mpr hwrites)
  | filterRows expression =>
    right
    rw [accepted_eq_ok h]
    exact ⟨Or.inl rfl, List.filter_sublist.map _⟩
  | deduplicate columns =>
    right
    rw [accepted_eq_ok h]
    exact ⟨Or.inr rfl, (unique_sublist ..).map _⟩
  | pseudonymise column key =>
    left
    obtain ⟨-, -, h⟩ := bind_eq_ok.mp h
    obtain ⟨-, -, h⟩ := bind_eq_ok.mp h
    rw [accepted_eq_ok h]
    exact ids_withColumns (List.forall_mem_singleton.mpr hwrites)
  | other kind => cases h

/-! ## What a step quarantines -/

theorem zip_filterMap_sublist {α β γ δ : Type} {g : α × β → Option γ} {s : γ → δ} {f : α → δ}
    (h : ∀ x c, g x = some c → s c = f x.1) (l : List α) (m : List β) :
    (((l.zip m).filterMap g).map s).Sublist (l.map f) := by
  induction l generalizing m with
  | nil => exact List.Sublist.refl _
  | cons a l ih =>
    cases m with
    | nil => exact List.nil_sublist _
    | cons b m =>
      rw [List.zip_cons_cons]
      cases hg : g (a, b) with
      | none =>
        rw [List.filterMap_cons_none hg]
        exact (ih m).cons _
      | some c =>
        rw [List.filterMap_cons_some hg, List.map_cons, h _ _ hg]
        exact (ih m).cons_cons _

omit [DecidableEq V] in
theorem coercionFailures_sources {before after : Frame V D} {failed : List (Failed V)}
    (h : coercionFailures p op before after = .ok failed) :
    (failed.map Failed.source).Sublist (ids before) := by
  obtain ⟨-, -, h⟩ := bind_eq_ok.mp h
  obtain rfl := pure_eq_ok.mp h
  apply zip_filterMap_sublist
  intro rows f hf
  obtain ⟨target, -, rfl⟩ := Option.map_eq_some_iff.mp hf
  rfl

omit [DecidableEq V] in
theorem failing_isSome {before after : String → V} :
    (failing p op before after).isSome ↔ Nulls p op before after := by
  rw [failing, List.find?_isSome, Nulls]
  cases op with
  | cast columns =>
    simp only [targets, Operation.Parses, Dict.keys, List.mem_map, Bool.and_eq_true, Bool.not_eq_true']
    constructor
    · rintro ⟨t, ht, hnulls⟩
      exact ⟨t.1, ⟨t, ht, rfl⟩, hnulls⟩
    · rintro ⟨_, ⟨t, ht, rfl⟩, hnulls⟩
      exact ⟨t, ht, hnulls⟩
  | parseDate column format => simp [targets, Operation.Parses]
  | _ => simp [targets, Operation.Parses]

omit [DecidableEq V] in
theorem mem_coercionFailures {before after : Frame V D} {failed : List (Failed V)} {x : V}
    (h : coercionFailures p op before after = .ok failed) : x ∈ failed.map Failed.source ↔
      ∃ rows ∈ before.rows.zip after.rows, rows.1 sourceRow = x ∧ Nulls p op rows.1 rows.2 := by
  obtain ⟨-, -, h⟩ := bind_eq_ok.mp h
  obtain rfl := pure_eq_ok.mp h
  simp only [List.mem_map, List.mem_filterMap, Option.map_eq_some_iff, ← failing_isSome]
  constructor
  · rintro ⟨_, ⟨rows, hrows, target, htarget, rfl⟩, rfl⟩
    exact ⟨rows, hrows, rfl, Option.isSome_of_eq_some htarget⟩
  · rintro ⟨rows, hrows, rfl, hsome⟩
    obtain ⟨target, htarget⟩ := Option.isSome_iff_exists.mp hsome
    exact ⟨_, ⟨rows, hrows, target, htarget, rfl⟩, rfl⟩

omit [DecidableEq V] in
theorem coercionFailures_filters {before after : Frame V D} {failed : List (Failed V)}
    (hfilters : Filters op.kind) (h : coercionFailures p op before after = .ok failed) : failed = [] := by
  obtain ⟨-, -, h⟩ := bind_eq_ok.mp h
  obtain rfl := pure_eq_ok.mp h
  have htargets : targets op = [] := by
    cases op with
    | cast columns => simp [Filters, Operation.kind] at hfilters
    | parseDate column format => simp [Filters, Operation.kind] at hfilters
    | _ => rfl
  apply List.filterMap_eq_nil_iff.mpr
  intro rows _
  rw [failing, htargets]
  rfl

theorem ids_kept {failed : List (Failed V)} :
    ids (kept frame failed) = (ids frame).filter (· ∉ failed.map Failed.source) := by
  rw [ids, ids, List.filter_map]
  rfl

theorem firstFailures_of_nodup {failed : List (Failed V)} {seen : List V}
    (hnodup : (failed.map Failed.source).Nodup) (hseen : ∀ f ∈ failed, f.source ∉ seen) :
    firstFailures seen failed = failed := by
  induction failed generalizing seen with
  | nil => rfl
  | cons f failed ih =>
    obtain ⟨hf, hnodup⟩ := List.nodup_cons.mp hnodup
    rw [firstFailures, if_neg (hseen f List.mem_cons_self), ih hnodup]
    intro g hg hmem
    rcases List.mem_cons.mp hmem with heq | hmem
    · exact hf (heq ▸ List.mem_map_of_mem hg)
    · exact hseen g (List.mem_cons_of_mem _ hg) hmem

theorem find?_index {rows : List (String → V)} {i : ℕ} {row : String → V}
    (h : rows[i]? = some row) :
    (rows.zipIdx.find? fun r => p.index r.2 = p.index i) = some (row, i) := by
  obtain ⟨r, hr⟩ : ∃ r, (rows.zipIdx.find? fun r => p.index r.2 = p.index i) = some r := by
    rw [← Option.isSome_iff_exists, List.find?_isSome]
    exact ⟨(row, i), List.mem_zipIdx_iff_getElem?.mpr h, by simp⟩
  have hi : r.2 = i := by
    apply p.index_injective
    simpa using List.find?_some hr
  have hrow := List.mem_zipIdx_iff_getElem?.mp (List.mem_of_find?_eq_some hr)
  rw [hi, h] at hrow
  rw [hr, ← hi, Option.some.inj hrow]

/-! ## The ledger -/

/-- The source rows that a run has rejected and those that its filters have dropped, each with its
table. -/
structure Ledger where
  rejected : List (String × ℕ)
  dropped : List (String × ℕ)

def rowsOf (name : String) (l : List (String × ℕ)) : List ℕ :=
  (l.filter (·.1 = name)).map Prod.snd

theorem rowsOf_append (name table : String) (l : List (String × ℕ)) (rows : List ℕ) :
    rowsOf name (l ++ rows.map (table, ·)) = rowsOf name l ++ if table = name then rows else [] := by
  rw [rowsOf, List.filter_append, List.map_append, ← rowsOf, List.filter_map]
  split_ifs with h
  · simp [Function.comp_def, h]
  · simp [Function.comp_def, h]

def total {α : Type} [Zero α] [Add α] (name : String) (count : StepStats → α)
    (stats : List StepStats) : α := ((stats.filter (·.table = name)).map count).sum

theorem total_append {α : Type} [AddMonoid α] (name : String) (count : StepStats → α)
    (stats : List StepStats) (st : StepStats) : total name count (stats ++ [st]) =
      total name count stats + if st.table = name then count st else 0 := by
  rw [total, List.filter_append, List.map_append, List.sum_append, ← total]
  split_ifs with h
  · simp [h]
  · simp [h]

/-- Each source row of every table is in the ledger once or in the working table once. The quarantine
holds the rejected rows in their order, with the texts of the input. The reported numbers are those of
the ledger, and only the steps that filter drop rows. -/
structure Accounted (p : Library V D) (sources : Dict (Frame V D)) (s : State V D)
    (ledger : Ledger) : Prop where
  rows : ∀ name source, sources.get? name = some source →
    ∃ w left, s.working.get? name = some w ∧ ids w = left.map p.index ∧
      (List.range source.rows.length).Perm
        (rowsOf name ledger.rejected ++ rowsOf name ledger.dropped ++ left)
  quarantine : List.Forall₂ (fun (q : Rejected) r => ∃ source row, sources.get? r.1 = some source ∧
    source.rows[r.2]? = some row ∧ q.cells = inputText p source (some row))
    s.rejects.flatten ledger.rejected
  rejected : ∀ name, total name StepStats.rowsRejected s.stats = (rowsOf name ledger.rejected).length
  removed : ∀ name, total name StepStats.rowsRemoved s.stats = (rowsOf name ledger.dropped).length
  added : ∀ st ∈ s.stats, st.rowsAdded = 0
  declared : ∀ st ∈ s.stats, st.rowsRemoved ≠ 0 → Filters st.step

/-- The step nulls a cell of the row that came from the source row of the table. -/
def NulledAt (p : Library V D) (step : Step V) (s : State V D) (name : String) (i : ℕ) : Prop :=
  ∃ first before after, s.working.keys.head? = some first ∧ step.table.getD first = name ∧
    s.working.get? name = some before ∧ applyStep p before step.operation = .ok after ∧
    ∃ rows ∈ before.rows.zip after.rows, rows.1 sourceRow = p.index i ∧
      Nulls p step.operation rows.1 rows.2

/-- A step of the recipe does, in the state that the steps before it leave. -/
def NulledBy (p : Library V D) (sources : Dict (Frame V D)) :
    ℕ → List (Step V) → State V D → String → ℕ → Prop
  | _, [], _, _, _ => False
  | index, step :: steps, s, name, i => NulledAt p step s name i ∨
      ∃ s', runStep p sources index step s = .ok s' ∧ NulledBy p sources (index + 1) steps s' name i

theorem perm_of_sublist {α : Type} [DecidableEq α] {l part : List α} (hnodup : l.Nodup)
    (h : part.Sublist l) : l.Perm (part ++ l.filter (· ∉ part)) := by
  apply (List.perm_ext_iff_of_nodup hnodup _).mpr
  · intro a
    simp only [List.mem_append, List.mem_filter, decide_eq_true_eq]
    constructor
    · intro ha
      by_cases hpart : a ∈ part
      · exact Or.inl hpart
      · exact Or.inr ⟨ha, hpart⟩
    · rintro (ha | ⟨ha, -⟩)
      · exact h.subset ha
      · exact ha
  · apply List.nodup_append.mpr ⟨hnodup.sublist h, hnodup.filter _, _⟩
    rintro a ha b hb rfl
    exact of_decide_eq_true (List.mem_filter.mp hb).2 ha

variable {sources : Dict (Frame V D)} {s s' : State V D} {ledger : Ledger} {index : ℕ}
  {step : Step V}

/-- What a step does to the rows that its table has left: it drops some, quarantines some, and keeps
the others. -/
structure Parted (p : Library V D) (kind : String) (after : Frame V D) (failed : List (Failed V))
    (left : List ℕ) where
  gone : List ℕ
  quarantined : List ℕ
  stays : List ℕ
  perm : left.Perm (quarantined ++ gone ++ stays)
  sources : failed.map Failed.source = quarantined.map p.index
  after_length : after.rows.length = quarantined.length + stays.length
  kept_ids : ids (kept after failed) = stays.map p.index
  filters : gone ≠ [] → Filters kind

theorem parted {before after : Frame V D} {failed : List (Failed V)} {left : List ℕ}
    (hleft : ids before = left.map p.index) (hnodup : left.Nodup)
    (hwrites : ¬ op.Writes p sourceRow) (happlied : applyStep p before op = .ok after)
    (hfailed : coercionFailures p op before after = .ok failed) :
    Nonempty (Parted p op.kind after failed left) := by
  obtain ⟨hsub, hall⟩ := applyStep_ids hwrites happlied
  rw [hleft] at hsub
  obtain ⟨here, hhere, hafter⟩ := List.sublist_map_iff.mp hsub
  have hsources : (failed.map Failed.source).Sublist (here.map p.index) := by
    by_cases hfilters : Filters op.kind
    · rw [coercionFailures_filters hfilters hfailed]
      exact List.nil_sublist _
    · rw [← hafter, hall hfilters]
      exact coercionFailures_sources hfailed
  obtain ⟨quarantined, hquarantined, hmap⟩ := List.sublist_map_iff.mp hsources
  have hhere_nodup := hnodup.sublist hhere
  have hparts := perm_of_sublist hhere_nodup hquarantined
  have hgone := perm_of_sublist hnodup hhere
  refine ⟨⟨left.filter (· ∉ here), quarantined, here.filter (· ∉ quarantined), ?_, hmap, ?_, ?_, ?_⟩⟩
  · calc left.Perm (here ++ left.filter (· ∉ here)) := hgone
      _ |>.Perm (quarantined ++ here.filter (· ∉ quarantined) ++ left.filter (· ∉ here)) :=
        hparts.append_right _
      _ |>.Perm _ := by
        rw [List.append_assoc, List.append_assoc]
        exact List.perm_append_comm.append_left _
  · have hlength := congrArg List.length hafter
    rw [ids, List.length_map, List.length_map] at hlength
    rw [hlength, hparts.length_eq, List.length_append]
  · rw [ids_kept, hafter, hmap, List.filter_map]
    congr 1
    apply List.filter_congr
    intro i _
    simp only [Function.comp_apply, List.mem_map_of_injective p.index_injective]
  · intro hne
    by_contra hfilters
    apply hne
    have hsame : here = left :=
      List.map_injective_iff.mpr p.index_injective (hafter.symm.trans ((hall hfilters).trans hleft))
    simp [hsame]

/-! ## The run -/

omit [DecidableEq V] in
theorem stepStats_counts (kind table : String) (gone quarantined stays : ℕ) :
    stepStats kind table (quarantined + gone + stays) stays quarantined
      (quarantined + stays - stays) =
    { step := kind, table, rowsBefore := quarantined + gone + stays, rowsAfter := stays
      rowsRejected := quarantined, rowsRemoved := gone, rowsAdded := 0 } := by
  simp only [stepStats, StepStats.mk.injEq, true_and]
  omega

theorem quarantineFrame_texts {source : Frame V D} {failed : List (Failed V)}
    {quarantined : List ℕ} (hsources : failed.map Failed.source = quarantined.map p.index)
    (hnodup : quarantined.Nodup) (hbound : ∀ i ∈ quarantined, i < source.rows.length) :
    List.Forall₂ (fun (q : Rejected) i => ∃ row, source.rows[i]? = some row ∧
      q.cells = inputText p source (some row)) (quarantineFrame p source failed) quarantined := by
  have hfirst : firstFailures [] failed = failed := by
    apply firstFailures_of_nodup
    · rw [hsources]
      exact hnodup.map p.index_injective
    · intro f _ hf
      cases hf
  have hpairs : List.Forall₂ (fun f i => f.source = p.index i) failed quarantined := by
    have hrefl := List.forall₂_same.mpr fun x (_ : x ∈ failed.map Failed.source) => Eq.refl x
    nth_rw 2 [hsources] at hrefl
    exact List.forall₂_map_right_iff.mp (List.forall₂_map_left_iff.mp hrefl)
  rw [quarantineFrame, hfirst, List.forall₂_map_left_iff]
  obtain ⟨hlength, hzip⟩ := List.forall₂_iff_zip.mp hpairs
  apply List.forall₂_iff_zip.mpr ⟨hlength, _⟩
  intro f i hmem
  have hrow := List.getElem?_eq_getElem (hbound i (List.of_mem_zip hmem).2)
  refine ⟨_, hrow, ?_⟩
  simp only [hzip hmem, find?_index hrow, Option.map_some]

theorem runStep_accounted (hacc : Accounted p sources s ledger)
    (hwrites : ¬ step.operation.Writes p sourceRow)
    (h : runStep p sources index step s = .ok s') :
    ∃ ledger', Accounted p sources s' ledger' ∧
      ∀ r, r ∈ ledger'.rejected ↔ r ∈ ledger.rejected ∨ NulledAt p step s r.1 r.2 := by
  obtain ⟨-, -, h⟩ := bind_eq_ok.mp h
  obtain ⟨first, hfirst, h⟩ := bind_eq_ok.mp h
  obtain ⟨before, hbefore, h⟩ := bind_eq_ok.mp h
  obtain ⟨after, happlied, h⟩ := bind_eq_ok.mp h
  obtain ⟨failed, hfailed, h⟩ := bind_eq_ok.mp h
  obtain ⟨source, hsource, h⟩ := bind_eq_ok.mp h
  obtain rfl := pure_eq_ok.mp h
  rw [require_eq_ok] at hfirst hbefore hsource
  set table := step.table.getD first with htable
  obtain ⟨w, left, hw, hleft, hperm⟩ := hacc.rows table source hsource
  obtain rfl : w = before := Option.some.inj (hw.symm.trans hbefore)
  have hnodup : left.Nodup := (hperm.nodup_iff.mp List.nodup_range).of_append_right
  obtain ⟨part⟩ := parted hleft hnodup hwrites happlied hfailed
  have hquarantined : part.quarantined.Nodup :=
    (part.perm.nodup_iff.mp hnodup).of_append_left.of_append_left
  have hbound : ∀ i ∈ part.quarantined, i < source.rows.length := fun i hi =>
    List.mem_range.mp (hperm.mem_iff.mpr (List.mem_append_right _
      (part.perm.mem_iff.mpr (List.mem_append_left _ (List.mem_append_left _ hi)))))
  have htexts := quarantineFrame_texts part.sources hquarantined hbound
  have hcount : (firstFailures [] failed).length = part.quarantined.length := by
    have := htexts.length_eq
    rwa [quarantineFrame, List.length_map] at this
  have hstays : (kept after failed).rows.length = part.stays.length := by
    simpa [ids] using congrArg List.length part.kept_ids
  have hwidth : w.rows.length =
      part.quarantined.length + part.gone.length + part.stays.length := by
    have hids : w.rows.length = left.length := by simpa [ids] using congrArg List.length hleft
    rw [hids, part.perm.length_eq, List.length_append, List.length_append]
  refine ⟨⟨ledger.rejected ++ part.quarantined.map (table, ·),
    ledger.dropped ++ part.gone.map (table, ·)⟩, ⟨?_, ?_, ?_, ?_, ?_, ?_⟩, fun r => ?_⟩
  rotate_right
  · rw [List.mem_append]
    refine or_congr Iff.rfl ?_
    have hmem : ∀ i, i ∈ part.quarantined ↔ ∃ rows ∈ w.rows.zip after.rows,
        rows.1 sourceRow = p.index i ∧ Nulls p step.operation rows.1 rows.2 := fun i => by
      rw [← mem_coercionFailures hfailed, part.sources, List.mem_map_of_injective p.index_injective]
    constructor
    · intro hr
      obtain ⟨i, hi, rfl⟩ := List.mem_map.mp hr
      exact ⟨first, w, after, hfirst, htable.symm, hw, happlied, (hmem i).mp hi⟩
    · rintro ⟨first', before', after', hfirst', hname, hbefore', happlied', hrows⟩
      obtain rfl : first = first' := Option.some.inj (hfirst.symm.trans hfirst')
      rw [← htable.trans hname] at hbefore'
      obtain rfl : w = before' := Option.some.inj (hw.symm.trans hbefore')
      obtain rfl : after = after' := Except.ok.inj (happlied.symm.trans happlied')
      exact List.mem_map.mpr ⟨r.2, (hmem r.2).mpr hrows, Prod.ext (htable.trans hname) rfl⟩
  · intro name source' hsource'
    rw [rowsOf_append, rowsOf_append]
    by_cases hname : name = table
    · subst hname
      obtain rfl : source' = source := Option.some.inj (hsource'.symm.trans hsource)
      refine ⟨kept after failed, part.stays, ?_, part.kept_ids, ?_⟩
      · exact (Dict.get?_insert).trans (if_pos rfl)
      · rw [if_pos rfl, if_pos rfl]
        apply hperm.trans
        apply (part.perm.append_left _).trans
        rw [List.perm_iff_count]
        intro i
        simp only [List.count_append]
        omega
    · obtain ⟨w', left', hw', hleft', hperm'⟩ := hacc.rows name source' hsource'
      refine ⟨w', left', ?_, hleft', ?_⟩
      · exact (Dict.get?_insert).trans ((if_neg hname).trans hw')
      · rw [if_neg (Ne.symm hname), if_neg (Ne.symm hname), List.append_nil, List.append_nil]
        exact hperm'
  · have hflatten : (record p table source w after step.operation.kind failed s).rejects.flatten =
        s.rejects.flatten ++ quarantineFrame p source failed := by
      rw [record]
      split_ifs with hnil
      · rw [hnil]
        exact (List.append_nil _).symm
      · simp
    rw [hflatten]
    apply List.rel_append hacc.quarantine
    rw [List.forall₂_map_right_iff]
    exact htexts.imp fun q i ⟨row, hrow, hcells⟩ => ⟨source, row, hsource, hrow, hcells⟩
  all_goals
    have hst := stepStats_counts step.operation.kind table part.gone.length
      part.quarantined.length part.stays.length
  all_goals rw [← hwidth, ← part.after_length, ← hstays, ← hcount] at hst
  · intro name
    rw [rowsOf_append, record, total_append, hacc.rejected, List.length_append, hst]
    split_ifs <;> simp [hcount]
  · intro name
    rw [rowsOf_append, record, total_append, hacc.removed, List.length_append, hst]
    split_ifs <;> simp
  · intro st hmem
    rcases List.mem_append.mp hmem with hmem | hmem
    · exact hacc.added st hmem
    · rw [List.mem_singleton.mp hmem, hst]
  · intro st hmem hne
    rcases List.mem_append.mp hmem with hmem | hmem
    · exact hacc.declared st hmem hne
    · rw [List.mem_singleton.mp hmem, hst] at hne ⊢
      apply part.filters
      rintro hgone
      simp [hgone] at hne

theorem runSteps_accounted {steps : List (Step V)} (hacc : Accounted p sources s ledger)
    (hwrites : ∀ step ∈ steps, ¬ step.operation.Writes p sourceRow)
    (h : runSteps p sources index steps s = .ok s') :
    ∃ ledger', Accounted p sources s' ledger' ∧ ∀ r, r ∈ ledger'.rejected ↔
      r ∈ ledger.rejected ∨ NulledBy p sources index steps s r.1 r.2 := by
  induction steps generalizing index s ledger with
  | nil =>
    cases h
    exact ⟨ledger, hacc, fun r => (or_iff_left id).symm⟩
  | cons step steps ih =>
    obtain ⟨next, hnext, h⟩ := bind_eq_ok.mp h
    obtain ⟨ledger', hacc', hat⟩ := runStep_accounted hacc (hwrites step List.mem_cons_self) hnext
    obtain ⟨last, hlast, hby⟩ := ih hacc' (fun x hx => hwrites x (List.mem_cons_of_mem _ hx)) h
    refine ⟨last, hlast, fun r => ?_⟩
    rw [hby, hat, or_assoc, NulledBy]
    refine or_congr Iff.rfl (or_congr Iff.rfl ⟨fun hr => ⟨next, hnext, hr⟩, ?_⟩)
    rintro ⟨next', hnext', hr⟩
    rwa [Except.ok.inj (hnext.symm.trans hnext')]

omit [DecidableEq V] in
theorem ids_withSourceRow (source : Frame V D) :
    ids (withSourceRow p source) = (List.range source.rows.length).map p.index := by
  rw [List.range_eq_range', ← List.zipIdx_map_snd 0 source.rows, ids, withSourceRow, List.map_map,
    List.map_map]
  rfl

omit [DecidableEq V] in
theorem start_accounted : Accounted p sources
    ⟨sources.mapValues (withSourceRow p), [], []⟩ ⟨[], []⟩ := by
  constructor
  · intro name source hsource
    refine ⟨withSourceRow p source, List.range source.rows.length, ?_, ids_withSourceRow source, ?_⟩
    · rw [Dict.get?_mapValues, hsource]
      rfl
    · exact List.Perm.refl _
  · exact List.Forall₂.nil
  · intro name
    rfl
  · intro name
    rfl
  · rintro _ ⟨⟩
  · rintro _ ⟨⟩

/-- A completed recipe that does not write the working column accounts for every source row, and
rejects a row just where a parsing step nulls a value of it. -/
theorem applyRecipe_accounted (p : Library V D) (sources : Dict (Frame V D))
    (recipe : List (Step V)) (result : PreparationResult V D)
    (h : applyRecipe p sources recipe = .ok result)
    (hwrites : ∀ step ∈ recipe, ¬ step.operation.Writes p sourceRow) :
    ∃ s ledger, Accounted p sources s ledger ∧
      (∀ r, r ∈ ledger.rejected ↔ NulledBy p sources 0 recipe
        ⟨sources.mapValues (withSourceRow p), [], []⟩ r.1 r.2) ∧
      result.tables = s.working.mapValues drop ∧
      result.rejected.getD [] = s.rejects.flatten ∧ result.stats = s.stats := by
  obtain ⟨-, -, h⟩ := bind_eq_ok.mp h
  obtain ⟨s, hs, h⟩ := bind_eq_ok.mp h
  obtain ⟨-, -, h⟩ := bind_eq_ok.mp h
  obtain rfl := pure_eq_ok.mp h
  obtain ⟨ledger, hacc, hnulled⟩ := runSteps_accounted start_accounted hwrites hs
  refine ⟨s, ledger, hacc, fun r => (hnulled r).trans (or_iff_right nofun), rfl, ?_, rfl⟩
  split_ifs with hnil
  · rw [hnil]
    rfl
  · rfl

/-! ## A repeated row and a text that is no number -/

inductive Cell
  | null
  | number (n : ℕ)
  | text (s : String)
  deriving DecidableEq

/-- A text of digits as a number. -/
def Cell.ofText (s : String) : Cell :=
  if s ≠ "" ∧ s.toList.all Char.isDigit then
    .number (s.toList.foldl (fun n c => 10 * n + (c.toNat - '0'.toNat)) 0)
  else .null

/-- The library on cells that are numbers and texts. -/
def cells : Library Cell Unit where
  isNull c := c = .null
  index := .number
  index_injective _ _ h := Cell.number.inj h
  indexType := ()
  text
    | .null => none
    | .number n => some (toString n)
    | .text s => some s
  repr s := "'" ++ s ++ "'"
  compute e c row := match e, row c with
    | .cast "int", .text s => .ofText s
    | _, cell => cell
  typeOf _ := ()
  holds _ _ := true
  selects name c := name = c
  accepts _ _ := true

def ages : Frame Cell Unit where
  columns := [("age", ())]
  rows := ["40", "40", "x"].map fun s _ => .text s

def ageTables : Dict (Frame Cell Unit) := ⟨[("policies", ages)], by decide⟩

def ageRecipe : List (Step Cell) :=
  [⟨.deduplicate [], none⟩, ⟨.cast ⟨[("age", "int")], by decide⟩, none⟩]

theorem ageRecipe_writes : ∀ step ∈ ageRecipe, ¬ step.operation.Writes cells sourceRow := by
  intro step hstep
  rcases List.mem_cons.mp hstep with rfl | hstep
  · exact id
  · rw [List.mem_singleton.mp hstep]
    rintro ⟨name, hname, hselects⟩
    rw [List.mem_singleton.mp hname] at hselects
    exact absurd hselects (by decide)

theorem ageRecipe_accounted : ∃ result, applyRecipe cells ageTables ageRecipe = .ok result ∧
    ∃ s ledger, Accounted cells ageTables s ledger ∧
      (∀ r, r ∈ ledger.rejected ↔ NulledBy cells ageTables 0 ageRecipe
        ⟨ageTables.mapValues (withSourceRow cells), [], []⟩ r.1 r.2) ∧
      result.tables = s.working.mapValues drop ∧
      result.rejected.getD [] = s.rejects.flatten ∧ result.stats = s.stats := by
  obtain ⟨result, h⟩ := exists_ok (x := applyRecipe cells ageTables ageRecipe) (by decide)
  exact ⟨result, h, applyRecipe_accounted cells ageTables ageRecipe result h ageRecipe_writes⟩

/-- The quarantined row has no row number, and the repeated row is in no count of quarantined rows, of
rows that a filter drops, or of working rows. -/
theorem repeated_row_unaccounted : ∃ result, applyRecipe cells ageTables ageRecipe = .ok result ∧
    (∃ q ∈ result.rejected.getD [], sourceRow ∉ q.cells.map Prod.fst) ∧
    ∃ written, result.tables.get? "policies" = some written ∧
      (ages.rows.length : ℤ) ≠ (result.rejected.getD []).length +
        total "policies" StepStats.rowsRemoved (result.stats.filter (·.step = "filter_rows")) +
        written.rows.length := by
  have hrun : (applyRecipe cells ageTables ageRecipe).map (fun result =>
      ((result.rejected.getD []).map fun q => q.cells.map Prod.fst, result.stats.map StepStats.step,
        (result.tables.get? "policies").map fun written => written.rows.length)) =
      .ok ([["age"]], ["deduplicate", "cast"], some 1) := by decide
  obtain ⟨result, h, hvalues⟩ := map_eq_ok.mp hrun
  obtain ⟨hcells, hrest⟩ := Prod.mk.inj hvalues
  obtain ⟨hsteps, hheight⟩ := Prod.mk.inj hrest
  obtain ⟨written, hwritten, hone⟩ := Option.map_eq_some_iff.mp hheight
  refine ⟨result, h, ?_, written, hwritten, ?_⟩
  · obtain ⟨q, hq, hnames⟩ := List.mem_map.mp (hcells ▸ List.mem_singleton_self ["age"])
    refine ⟨q, hq, ?_⟩
    rw [hnames]
    decide
  · have hrejected : (result.rejected.getD []).length = 1 := by
      simpa using congrArg List.length hcells
    have hfilters : result.stats.filter (·.step = "filter_rows") = [] := by
      apply List.filter_eq_nil_iff.mpr
      intro st hst heq
      have hmem := List.mem_map_of_mem (f := StepStats.step) hst
      rw [hsteps, of_decide_eq_true heq] at hmem
      exact absurd hmem (by decide)
    rw [hfilters, hrejected, hone]
    decide

end GiPricing.Data.Recipe
