import GiPricing.Summary.Structural

/-! # The drafted change summary

The rate tables that differ between two versions: first those that a table step names, then the pins
that no step names, paired by slug. The draft sorts them and says what changed.
-/

namespace GiPricing.Summary

open Attribution Merge

/-- The cells of two versions of a table that differ, the largest change as its text. -/
structure RateTableDiff where
  changedCells : ℕ
  maxAbsChangePct : Option String
  deriving DecidableEq

structure RateTableChange where
  slug : String
  stepId : Option String
  fromRef : Option ArtifactRef
  toRef : Option ArtifactRef
  diff : Option RateTableDiff := none
  pending : Bool := false
  deriving DecidableEq

def RateTableChange.Names (e : RateTableChange) (r : ArtifactRef) : Prop :=
  e.fromRef = some r ∨ e.toRef = some r

instance (r : ArtifactRef) : DecidablePred fun e : RateTableChange => e.Names r :=
  fun _ => inferInstanceAs (Decidable (_ ∨ _))

/-! ## The table steps -/

def tableRef? (s : RatingStep) : Option (String × ArtifactRef) := match s.kind with
  | .table r _ _ _ => some (s.stepId, r)
  | _ => none

/-- `_table_refs`. -/
def tableRefs (a : RatingAlgorithm) : List (String × ArtifactRef) := a.steps.filterMap tableRef?

def tableRefOf (a : RatingAlgorithm) (stepId : String) : Option ArtifactRef :=
  (byKey Prod.fst (tableRefs a) stepId).map Prod.snd

/-- The entries of a table step. -/
def stepEntry (stepId : String) (old new : Option ArtifactRef) : List RateTableChange :=
  if old = new then []
  else match old, new with
    | some o, some n =>
      if o.slug = n.slug then [⟨o.slug, some stepId, some o, some n, none, false⟩]
      else [⟨o.slug, some stepId, some o, none, none, false⟩,
        ⟨n.slug, some stepId, none, some n, none, false⟩]
    | some o, none => [⟨o.slug, some stepId, some o, none, none, false⟩]
    | none, some n => [⟨n.slug, some stepId, none, some n, none, false⟩]
    | none, none => []

def stepNamed (old new : Option ArtifactRef) : List ArtifactRef :=
  if old = new then [] else old.toList ++ new.toList

def tableStepIds (p c : RatingAlgorithm) : List String :=
  sortedSet ((tableRefs p).map Prod.fst ++ (tableRefs c).map Prod.fst)

def stepEntries (p c : RatingAlgorithm) : List RateTableChange :=
  (tableStepIds p c).flatMap fun sid => stepEntry sid (tableRefOf p sid) (tableRefOf c sid)

def namedRefs (p c : RatingAlgorithm) : List ArtifactRef :=
  (tableStepIds p c).flatMap fun sid => stepNamed (tableRefOf p sid) (tableRefOf c sid)

/-! ## The pins that no step names -/

abbrev SetOrder := { order : List ArtifactRef → List ArtifactRef // ∀ l, (order l).Perm l.dedup }

/-- `(set(pins) - set(others)) - named`. -/
def unnamed (order : SetOrder) (pins others named : List ArtifactRef) : List ArtifactRef :=
  order.1 (pins.filter fun r => r ∉ others ∧ r ∉ named)

/-- The entries of a slug: one pair, or each pin of its own. -/
def pinEntry (slug : String) (gone came : List ArtifactRef) : List RateTableChange :=
  match gone, came with
  | [g], [c] => [⟨slug, none, some g, some c, none, false⟩]
  | gone, came => gone.map (fun r => ⟨slug, none, some r, none, none, false⟩) ++
      came.map fun r => ⟨slug, none, none, some r, none, false⟩

def pinEntries (removed added : List ArtifactRef) : List RateTableChange :=
  (sortedSet ((removed ++ added).map ArtifactRef.slug)).flatMap fun slug =>
    pinEntry slug (removed.filter (·.slug = slug)) (added.filter (·.slug = slug))

/-- `pair_rate_tables`. -/
def pairRateTables (order : SetOrder) (previous : Option RatingAlgorithm) (candidate : RatingAlgorithm)
    (before after : List ArtifactRef) : List RateTableChange :=
  let steps := (previous.map (stepEntries · candidate)).getD []
  let named := (previous.map (namedRefs · candidate)).getD []
  steps ++ pinEntries (unnamed order before after named) (unnamed order after before named)

/-! ## The draft -/

/-- `_entry_order`. -/
def entryOrder (e : RateTableChange) : String ×ₗ ℕ ×ₗ String ×ₗ String ×ₗ String :=
  toLex (e.slug, toLex (if e.stepId.isSome then 0 else 1, toLex (e.stepId.getD "",
    toLex ((e.fromRef.map refText).getD "", (e.toRef.map refText).getD ""))))

/-- `_table_line`; every entry names a reference. -/
def tableLine (e : RateTableChange) : String :=
  let label := match e.stepId with
    | none => e.slug
    | some sid => e.slug ++ " (step " ++ sid ++ ")"
  match e.fromRef, e.toRef with
  | none, none => ""
  | none, some n => "- " ++ label ++ ": added, pinned at version " ++ toString n.version ++ "."
  | some o, none => "- " ++ label ++ ": removed, was pinned at version " ++ toString o.version ++ "."
  | some o, some n =>
    let moved := "- " ++ label ++ ": version " ++ toString o.version ++ " -> " ++ toString n.version
    match e.pending, e.diff with
    | false, some d =>
      moved ++ ", " ++ toString d.changedCells ++ " cell(s) changed" ++
        (match d.maxAbsChangePct with
          | some pct => ", largest absolute change " ++ pct ++ "%"
          | none => "") ++ "."
    | _, _ =>
      moved ++ ", diff pending (a parquet table is not computed here); run " ++
        "GET /api/v1/rate-tables/" ++ e.slug ++ "@" ++ toString n.version ++
        "/diff?against=" ++ toString o.version ++ "."

structure ChangeSummaryDraft where
  baseline : Option ArtifactRef
  structuralDiff : Option AlgorithmDiff
  rateTables : List RateTableChange
  text : String
  deriving DecidableEq

def draftChangeSummary (baseline : Option ArtifactRef) (structuralDiff : Option AlgorithmDiff)
    (rateTables : List RateTableChange) : ChangeSummaryDraft :=
  let tables := sortedBy entryOrder rateTables
  let opening := match baseline with
    | none => ["No approved earlier version of this algorithm: nothing to compare against."]
    | some b => ("Drafted against " ++ refText b ++ ".") ::
        if structuralDiff = none then ["The baseline has no algorithm, so there is no structural diff."]
        else []
  let structural := (structuralDiff.map structuralLines).getD []
  let changes :=
    if structuralDiff.isSome ∧ structural = [] ∧ tables = [] then
      ["No structural change. No rate-table change."]
    else
      (if structuralDiff.isSome ∧ structural = [] then ["No structural change."] else structural) ++
        if baseline.isSome ∧ tables = [] then ["No rate-table change."] else []
  let tableLines :=
    if tables = [] then [] else "Rate tables (unweighted, no portfolio joined):" :: tables.map tableLine
  { baseline, structuralDiff, rateTables := tables
    text := "\n".intercalate (opening ++ changes ++ tableLines ++ ["Why:", "Expected impact:"]) }

/-- The versions of a slug whose diff a job computes, and the diffs of the others. -/
structure TableService where
  diffNeedsJob : String → ℕ → ℕ → Bool
  diff : String → ℕ → ℕ → RateTableDiff

def RateTableChange.withDiff (service : TableService) (e : RateTableChange) : RateTableChange :=
  match e.fromRef, e.toRef with
  | some old, some new =>
    if service.diffNeedsJob new.slug new.version old.version then { e with pending := true }
    else { e with diff := some (service.diff new.slug new.version old.version) }
  | _, _ => e

/-- The draft of a version against a baseline. -/
def changeSummary (service : TableService) (fieldRepr : RatingStep → String → String)
    (order : SetOrder) (baseline : ArtifactRef) (previous : Option RatingAlgorithm)
    (candidate : RatingAlgorithm) (before after : List ArtifactRef) : ChangeSummaryDraft :=
  draftChangeSummary (some baseline)
    (previous.map fun p =>
      diffAlgorithms fieldRepr p.toRatingAlgorithmDraft candidate.toRatingAlgorithmDraft)
    ((pairRateTables order previous candidate before after).map (·.withDiff service))

/-! ## What the entries name -/

section

variable {sid slug : String} {old new : Option ArtifactRef} {e : RateTableChange} {r : ArtifactRef}

/-- An entry of a step carries its id and names the references of the two sides. -/
structure StepEntry (sid : String) (old new : Option ArtifactRef) (e : RateTableChange) : Prop where
  stepId : e.stepId = some sid
  before : ∀ r, e.fromRef = some r → old = some r
  after : ∀ r, e.toRef = some r → new = some r

theorem stepEntry_sound (h : e ∈ stepEntry sid old new) : StepEntry sid old new e := by
  unfold stepEntry at h
  split_ifs at h with heq
  · cases h
  · cases old with
    | none =>
      cases new with
      | none => exact absurd rfl heq
      | some n =>
        rw [List.mem_singleton.mp h]
        exact ⟨rfl, nofun, fun r hr => hr⟩
    | some o =>
      cases new with
      | none =>
        rw [List.mem_singleton.mp h]
        exact ⟨rfl, fun r hr => hr, nofun⟩
      | some n =>
        dsimp only at h
        split_ifs at h with hslug
        · rw [List.mem_singleton.mp h]
          exact ⟨rfl, fun r hr => hr, fun r hr => hr⟩
        · rcases List.mem_pair.mp h with rfl | rfl
          · exact ⟨rfl, fun r hr => hr, nofun⟩
          · exact ⟨rfl, nofun, fun r hr => hr⟩

theorem exists_stepEntry_from (sid : String) (h : old ≠ new) (hr : old = some r) :
    ∃ e ∈ stepEntry sid old new, e.fromRef = some r := by
  subst hr
  unfold stepEntry
  rw [if_neg h]
  cases new with
  | none => exact ⟨_, List.mem_singleton_self _, rfl⟩
  | some n =>
    dsimp only
    split_ifs
    · exact ⟨_, List.mem_singleton_self _, rfl⟩
    · exact ⟨_, List.mem_cons_self, rfl⟩

theorem exists_stepEntry_to (sid : String) (h : old ≠ new) (hr : new = some r) :
    ∃ e ∈ stepEntry sid old new, e.toRef = some r := by
  subst hr
  unfold stepEntry
  rw [if_neg h]
  cases old with
  | none => exact ⟨_, List.mem_singleton_self _, rfl⟩
  | some o =>
    dsimp only
    split_ifs
    · exact ⟨_, List.mem_singleton_self _, rfl⟩
    · exact ⟨_, List.mem_cons_of_mem _ List.mem_cons_self, rfl⟩

theorem mem_stepNamed : r ∈ stepNamed old new ↔ old ≠ new ∧ (old = some r ∨ new = some r) := by
  unfold stepNamed
  split_ifs with h
  · simp [h]
  · simp [h, Option.mem_toList]

variable {gone came : List ArtifactRef}

theorem pinEntry_cases (slug : String) (gone came : List ArtifactRef) :
    (∃ g c, gone = [g] ∧ came = [c] ∧
      pinEntry slug gone came = [⟨slug, none, some g, some c, none, false⟩]) ∨
    pinEntry slug gone came = gone.map (fun r => ⟨slug, none, some r, none, none, false⟩) ++
      came.map fun r => ⟨slug, none, none, some r, none, false⟩ := by
  unfold pinEntry
  split
  · exact .inl ⟨_, _, rfl, rfl, rfl⟩
  · exact .inr rfl

/-- An entry of pins has no step and names pins of the two sides. -/
structure PinEntry (slug : String) (gone came : List ArtifactRef) (e : RateTableChange) : Prop where
  slug : e.slug = slug
  stepId : e.stepId = none
  before : ∀ r, e.fromRef = some r → r ∈ gone
  after : ∀ r, e.toRef = some r → r ∈ came

theorem pinEntry_sound (h : e ∈ pinEntry slug gone came) : PinEntry slug gone came e := by
  rcases pinEntry_cases slug gone came with ⟨g, c, rfl, rfl, heq⟩ | heq
  · rw [heq, List.mem_singleton] at h
    subst h
    exact ⟨rfl, rfl, by simp, by simp⟩
  · rw [heq, List.mem_append, List.mem_map, List.mem_map] at h
    rcases h with ⟨r, hr, rfl⟩ | ⟨r, hr, rfl⟩
    · exact ⟨rfl, rfl, by simpa using hr, nofun⟩
    · exact ⟨rfl, rfl, nofun, by simpa using hr⟩

theorem exists_pinEntry_from (slug : String) (came : List ArtifactRef) (h : r ∈ gone) :
    ∃ e ∈ pinEntry slug gone came, e.fromRef = some r := by
  rcases pinEntry_cases slug gone came with ⟨g, c, rfl, rfl, heq⟩ | heq
  · rw [heq]
    exact ⟨_, List.mem_singleton_self _, by rw [List.mem_singleton.mp h]⟩
  · rw [heq]
    exact ⟨_, List.mem_append_left _ (List.mem_map_of_mem h), rfl⟩

theorem exists_pinEntry_to (slug : String) (gone : List ArtifactRef) (h : r ∈ came) :
    ∃ e ∈ pinEntry slug gone came, e.toRef = some r := by
  rcases pinEntry_cases slug gone came with ⟨g, c, rfl, rfl, heq⟩ | heq
  · rw [heq]
    exact ⟨_, List.mem_singleton_self _, by rw [List.mem_singleton.mp h]⟩
  · rw [heq]
    exact ⟨_, List.mem_append_right _ (List.mem_map_of_mem h), rfl⟩

theorem countP_pinEntry (h : ¬ (r ∈ gone ∧ r ∈ came)) :
    (pinEntry slug gone came).countP (·.Names r) = gone.count r + came.count r := by
  rcases pinEntry_cases slug gone came with ⟨g, c, rfl, rfl, heq⟩ | heq
  · have hne : ¬ (g = r ∧ c = r) := by simpa [eq_comm] using h
    rw [heq]
    by_cases hg : g = r <;> by_cases hc : c = r <;>
      simp_all [RateTableChange.Names]
  · rw [heq, List.countP_append, List.countP_map, List.countP_map]
    congr 1 <;> simp [List.count_eq_countP, Function.comp_def, RateTableChange.Names,
      Bool.beq_eq_decide_eq]

end

section

variable {order : SetOrder} {p candidate : RatingAlgorithm} {previous : Option RatingAlgorithm}
  {before after pins others named removed added : List ArtifactRef} {sid : String}
  {e : RateTableChange} {r : ArtifactRef}

theorem mem_tableStepIds (h : tableRefOf p sid ≠ tableRefOf candidate sid) :
    sid ∈ tableStepIds p candidate := by
  rw [tableStepIds, mem_sortedSet, List.mem_append]
  by_contra hnot
  obtain ⟨hp, hc⟩ := not_or.mp hnot
  exact h (by rw [tableRefOf, tableRefOf, byKey_eq_none.mpr hp, byKey_eq_none.mpr hc])

theorem mem_stepEntries : e ∈ stepEntries p candidate ↔
    ∃ sid ∈ tableStepIds p candidate,
      e ∈ stepEntry sid (tableRefOf p sid) (tableRefOf candidate sid) := List.mem_flatMap

theorem exists_stepEntries_from (h : tableRefOf p sid ≠ tableRefOf candidate sid)
    (hr : tableRefOf p sid = some r) :
    ∃ e ∈ stepEntries p candidate, e.stepId = some sid ∧ e.fromRef = some r := by
  obtain ⟨e, he, hfrom⟩ := exists_stepEntry_from sid h hr
  exact ⟨e, mem_stepEntries.mpr ⟨sid, mem_tableStepIds h, he⟩, (stepEntry_sound he).stepId, hfrom⟩

theorem exists_stepEntries_to (h : tableRefOf p sid ≠ tableRefOf candidate sid)
    (hr : tableRefOf candidate sid = some r) :
    ∃ e ∈ stepEntries p candidate, e.stepId = some sid ∧ e.toRef = some r := by
  obtain ⟨e, he, hto⟩ := exists_stepEntry_to sid h hr
  exact ⟨e, mem_stepEntries.mpr ⟨sid, mem_tableStepIds h, he⟩, (stepEntry_sound he).stepId, hto⟩

theorem mem_namedRefs : r ∈ namedRefs p candidate ↔
    ∃ sid, tableRefOf p sid ≠ tableRefOf candidate sid ∧
      (tableRefOf p sid = some r ∨ tableRefOf candidate sid = some r) := by
  rw [namedRefs, List.mem_flatMap]
  constructor
  · rintro ⟨sid, -, h⟩
    exact ⟨sid, mem_stepNamed.mp h⟩
  · rintro ⟨sid, h, hr⟩
    exact ⟨sid, mem_tableStepIds h, mem_stepNamed.mpr ⟨h, hr⟩⟩

theorem mem_unnamed : r ∈ unnamed order pins others named ↔ r ∈ pins ∧ r ∉ others ∧ r ∉ named := by
  rw [unnamed, (order.2 _).mem_iff, List.mem_dedup, List.mem_filter, decide_eq_true_eq]

theorem nodup_unnamed : (unnamed order pins others named).Nodup :=
  (order.2 _).nodup_iff.mpr (List.nodup_dedup _)

theorem mem_pinEntries : e ∈ pinEntries removed added ↔
    ∃ slug ∈ sortedSet ((removed ++ added).map ArtifactRef.slug),
      e ∈ pinEntry slug (removed.filter (·.slug = slug)) (added.filter (·.slug = slug)) :=
  List.mem_flatMap

theorem slug_mem (h : r ∈ removed ∨ r ∈ added) :
    r.slug ∈ sortedSet ((removed ++ added).map ArtifactRef.slug) :=
  mem_sortedSet.mpr (List.mem_map_of_mem (List.mem_append.mpr h))

theorem exists_pinEntries_from (h : r ∈ removed) : ∃ e ∈ pinEntries removed added, e.fromRef = some r := by
  have hmem : r ∈ removed.filter (·.slug = r.slug) := List.mem_filter.mpr ⟨h, by simp⟩
  obtain ⟨e, he, hr⟩ := exists_pinEntry_from r.slug (added.filter (·.slug = r.slug)) hmem
  exact ⟨e, mem_pinEntries.mpr ⟨r.slug, slug_mem (.inl h), he⟩, hr⟩

theorem exists_pinEntries_to (h : r ∈ added) : ∃ e ∈ pinEntries removed added, e.toRef = some r := by
  have hmem : r ∈ added.filter (·.slug = r.slug) := List.mem_filter.mpr ⟨h, by simp⟩
  obtain ⟨e, he, hr⟩ := exists_pinEntry_to r.slug (removed.filter (·.slug = r.slug)) hmem
  exact ⟨e, mem_pinEntries.mpr ⟨r.slug, slug_mem (.inr h), he⟩, hr⟩

theorem pinEntries_names (h : e ∈ pinEntries removed added) (hr : e.Names r) :
    r ∈ removed ∨ r ∈ added := by
  obtain ⟨slug, -, he⟩ := mem_pinEntries.mp h
  rcases hr with hr | hr
  · exact .inl (List.mem_of_mem_filter ((pinEntry_sound he).before r hr))
  · exact .inr (List.mem_of_mem_filter ((pinEntry_sound he).after r hr))

theorem sum_indicator {l : List String} {k : String} (hl : l.Nodup) (hk : k ∈ l) :
    (l.map fun x => if x = k then 1 else 0).sum = 1 := by
  have hcount : (l.map fun x => if x = k then 1 else 0).sum = l.count k := by
    clear hl hk
    induction l with
    | nil => rfl
    | cons x l ih => simp [ih, List.count_cons, add_comm]
  rw [hcount, List.count_eq_one_of_mem hl hk]

/-- A pin of one side is in one entry: that of its slug. -/
theorem countP_pinEntries (hremoved : removed.Nodup) (hadded : added.Nodup)
    (h : (r ∈ removed ∧ r ∉ added) ∨ (r ∉ removed ∧ r ∈ added)) :
    (pinEntries removed added).countP (·.Names r) = 1 := by
  have hmem : r.slug ∈ sortedSet ((removed ++ added).map ArtifactRef.slug) :=
    slug_mem (h.imp And.left And.right)
  have hcount : ∀ slug, (pinEntry slug (removed.filter (·.slug = slug))
      (added.filter (·.slug = slug))).countP (·.Names r) = if slug = r.slug then 1 else 0 := by
    intro slug
    rw [countP_pinEntry (by
      rintro ⟨hr, ha⟩
      exact h.elim (fun h => h.2 (List.mem_of_mem_filter ha)) fun h => h.1 (List.mem_of_mem_filter hr))]
    split_ifs with hs
    · rw [List.count_filter (by simp [hs]), List.count_filter (by simp [hs])]
      rcases h with ⟨hr, ha⟩ | ⟨hr, ha⟩
      · rw [List.count_eq_one_of_mem hremoved hr, List.count_eq_zero_of_not_mem ha]
      · rw [List.count_eq_zero_of_not_mem hr, List.count_eq_one_of_mem hadded ha]
    · have hnot : ∀ l : List ArtifactRef, r ∉ l.filter (·.slug = slug) := fun l hl =>
        hs (by simpa [eq_comm] using (List.mem_filter.mp hl).2)
      rw [List.count_eq_zero_of_not_mem (hnot _), List.count_eq_zero_of_not_mem (hnot _)]
  rw [pinEntries, List.countP_flatMap]
  simp only [Function.comp_def, hcount]
  exact sum_indicator (nodup_sortedSet _) hmem

/-- The references of an algorithm's table steps are among the pins. -/
def Pinned (a : RatingAlgorithm) (pins : List ArtifactRef) : Prop :=
  ∀ sid r, tableRefOf a sid = some r → r ∈ pins

theorem mem_getD_map {α β : Type} {o : Option α} {f : α → List β} {b : β} :
    b ∈ (o.map f).getD [] ↔ ∃ a ∈ o, b ∈ f a := by
  cases o <;> simp

theorem mem_pairRateTables : e ∈ pairRateTables order previous candidate before after ↔
    (∃ p ∈ previous, e ∈ stepEntries p candidate) ∨
      e ∈ pinEntries
        (unnamed order before after ((previous.map (namedRefs · candidate)).getD []))
        (unnamed order after before ((previous.map (namedRefs · candidate)).getD [])) := by
  rw [pairRateTables, List.mem_append, mem_getD_map]

theorem stepEntries_stepId (h : e ∈ stepEntries p candidate) : e.stepId ≠ none := by
  obtain ⟨sid, -, he⟩ := mem_stepEntries.mp h
  simp [(stepEntry_sound he).stepId]

theorem pinEntries_stepId (h : e ∈ pinEntries removed added) : e.stepId = none := by
  obtain ⟨slug, -, he⟩ := mem_pinEntries.mp h
  exact (pinEntry_sound he).stepId

theorem exists_entry_of_namedRefs (h : r ∈ namedRefs p candidate) :
    ∃ e ∈ stepEntries p candidate, e.Names r := by
  obtain ⟨sid, hne, hr | hr⟩ := mem_namedRefs.mp h
  · obtain ⟨e, he, -, hfrom⟩ := exists_stepEntries_from hne hr
    exact ⟨e, he, .inl hfrom⟩
  · obtain ⟨e, he, -, hto⟩ := exists_stepEntries_to hne hr
    exact ⟨e, he, .inr hto⟩

theorem exists_from (hafter : Pinned candidate after) (hb : r ∈ before) (ha : r ∉ after) :
    ∃ e ∈ pairRateTables order previous candidate before after, e.fromRef = some r := by
  by_cases hnamed : r ∈ (previous.map (namedRefs · candidate)).getD []
  · obtain ⟨p, hp, hr⟩ := mem_getD_map.mp hnamed
    obtain ⟨sid, hne, hr | hr⟩ := mem_namedRefs.mp hr
    · obtain ⟨e, he, -, hfrom⟩ := exists_stepEntries_from hne hr
      exact ⟨e, mem_pairRateTables.mpr (.inl ⟨p, hp, he⟩), hfrom⟩
    · exact absurd (hafter sid r hr) ha
  · have hremoved : r ∈ unnamed order before after ((previous.map (namedRefs · candidate)).getD []) :=
      mem_unnamed.mpr ⟨hb, ha, hnamed⟩
    obtain ⟨e, he, hfrom⟩ := exists_pinEntries_from hremoved
    exact ⟨e, mem_pairRateTables.mpr (.inr he), hfrom⟩

theorem exists_to (hbefore : ∀ p ∈ previous, Pinned p before) (ha : r ∈ after) (hb : r ∉ before) :
    ∃ e ∈ pairRateTables order previous candidate before after, e.toRef = some r := by
  by_cases hnamed : r ∈ (previous.map (namedRefs · candidate)).getD []
  · obtain ⟨p, hp, hr⟩ := mem_getD_map.mp hnamed
    obtain ⟨sid, hne, hr | hr⟩ := mem_namedRefs.mp hr
    · exact absurd (hbefore p hp sid r hr) hb
    · obtain ⟨e, he, -, hto⟩ := exists_stepEntries_to hne hr
      exact ⟨e, mem_pairRateTables.mpr (.inl ⟨p, hp, he⟩), hto⟩
  · have hadded : r ∈ unnamed order after before ((previous.map (namedRefs · candidate)).getD []) :=
      mem_unnamed.mpr ⟨ha, hb, hnamed⟩
    obtain ⟨e, he, hto⟩ := exists_pinEntries_to hadded
    exact ⟨e, mem_pairRateTables.mpr (.inr he), hto⟩

theorem countP_pairRateTables (hside : (r ∈ before ∧ r ∉ after) ∨ (r ∉ before ∧ r ∈ after))
    (hsteps : ∀ e ∈ pairRateTables order previous candidate before after,
      e.stepId ≠ none → ¬ e.Names r) :
    (pairRateTables order previous candidate before after).countP (·.Names r) = 1 := by
  have hsteps : ∀ p ∈ previous, ∀ e ∈ stepEntries p candidate, ¬ e.Names r := fun p hp e he =>
    hsteps e (mem_pairRateTables.mpr (.inl ⟨p, hp, he⟩)) (stepEntries_stepId he)
  have hnamed : r ∉ (previous.map (namedRefs · candidate)).getD [] := by
    intro h
    obtain ⟨p, hp, hr⟩ := mem_getD_map.mp h
    obtain ⟨e, he, hr⟩ := exists_entry_of_namedRefs hr
    exact hsteps p hp e he hr
  have hzero : ((previous.map (stepEntries · candidate)).getD []).countP (·.Names r) = 0 := by
    rw [List.countP_eq_zero]
    intro e he
    obtain ⟨p, hp, he⟩ := mem_getD_map.mp he
    simpa using hsteps p hp e he
  rw [pairRateTables, List.countP_append, hzero, zero_add]
  refine countP_pinEntries nodup_unnamed nodup_unnamed ?_
  simp only [mem_unnamed]
  tauto

theorem pin_entry_one_side (h : e ∈ pairRateTables order previous candidate before after)
    (he : e.stepId = none) (hr : e.Names r) : ¬ (r ∈ before ∧ r ∈ after) := by
  rintro ⟨hb, ha⟩
  rcases mem_pairRateTables.mp h with ⟨p, -, hstep⟩ | hpin
  · exact stepEntries_stepId hstep he
  · rcases pinEntries_names hpin hr with hr | hr
    · exact (mem_unnamed.mp hr).2.1 ha
    · exact (mem_unnamed.mp hr).2.1 hb

end

/-! ## The order of the entries -/

section

variable {order order' : SetOrder} {p p' candidate candidate' : RatingAlgorithm}
  {previous previous' : Option RatingAlgorithm} {e e' : RateTableChange} {r r' : ArtifactRef}

theorem at_notMem_digits (n : ℕ) : '@' ∉ (toString n).toList := by
  intro h
  have hdigit : '@' ∈ Nat.toDigits 10 n := by simpa [toString, Nat.repr] using h
  have := Nat.isDigit_of_mem_toDigits (by omega) (by omega) hdigit
  exact absurd this (by decide)

theorem append_at_inj {a a' d d' : List Char} (hd : '@' ∉ d) (hd' : '@' ∉ d')
    (h : a ++ '@' :: d = a' ++ '@' :: d') : a = a' ∧ d = d' := by
  rcases List.append_eq_append_iff.mp h with ⟨c, rfl, hc⟩ | ⟨c, rfl, hc⟩
  · cases c with
    | nil => exact ⟨by simp, (List.cons.inj hc).2⟩
    | cons x c =>
      have := (List.cons.inj hc).2
      exact absurd (this ▸ List.mem_append_right c List.mem_cons_self) hd
  · cases c with
    | nil => exact ⟨by simp, (List.cons.inj hc).2.symm⟩
    | cons x c =>
      have := (List.cons.inj hc).2
      exact absurd (this ▸ List.mem_append_right c List.mem_cons_self) hd'

theorem toString_inj {n m : ℕ} (h : toString n = toString m) : n = m := Nat.repr_inj.mp h

theorem refText_inj (hslug : r.slug = r'.slug) (h : refText r = refText r') : r = r' := by
  have hlist := congrArg String.toList h
  simp only [refText, String.toList_append] at hlist
  have hat : "@".toList = ['@'] := rfl
  rw [hat, List.append_assoc _ ['@'], List.append_assoc _ ['@'], List.singleton_append,
    List.singleton_append] at hlist
  obtain ⟨hfront, hversion⟩ := append_at_inj (at_notMem_digits _) (at_notMem_digits _) hlist
  rw [hslug] at hfront
  have htype : r.type = r'.type := String.toList_inj.mp
    (List.append_cancel_right (List.append_cancel_right hfront))
  have hnumber : r.version = r'.version := toString_inj (String.toList_inj.mp hversion)
  cases r
  cases r'
  simp_all

theorem refText_ne_empty (r : ArtifactRef) : refText r ≠ "" := by
  intro h
  have := congrArg String.toList h
  simp [refText] at this

/-- The references of an entry are of its slug. -/
def OfSlug (e : RateTableChange) : Prop :=
  (∀ r, e.fromRef = some r → r.slug = e.slug) ∧ ∀ r, e.toRef = some r → r.slug = e.slug

theorem option_refText_inj {o o' : Option ArtifactRef} {slug : String}
    (ho : ∀ r, o = some r → r.slug = slug) (ho' : ∀ r, o' = some r → r.slug = slug)
    (h : (o.map refText).getD "" = (o'.map refText).getD "") : o = o' := by
  cases o with
  | none =>
    cases o' with
    | none => rfl
    | some r' => exact absurd h.symm (refText_ne_empty r')
  | some r =>
    cases o' with
    | none => exact absurd h (refText_ne_empty r)
    | some r' => exact congrArg some (refText_inj ((ho r rfl).trans (ho' r' rfl).symm) h)

theorem entryOrder_inj (he : OfSlug e) (he' : OfSlug e') (h : entryOrder e = entryOrder e') :
    e.slug = e'.slug ∧ e.stepId = e'.stepId ∧ e.fromRef = e'.fromRef ∧ e.toRef = e'.toRef := by
  simp only [entryOrder, EmbeddingLike.apply_eq_iff_eq, Prod.mk.injEq] at h
  obtain ⟨hslug, hflag, hstep, hfrom, hto⟩ := h
  refine ⟨hslug, ?_, option_refText_inj he.1 (hslug ▸ he'.1) hfrom,
    option_refText_inj he.2 (hslug ▸ he'.2) hto⟩
  cases hs : e.stepId <;> cases hs' : e'.stepId <;> simp_all

theorem ofSlug_stepEntry {sid : String} {old new : Option ArtifactRef} (h : e ∈ stepEntry sid old new) :
    OfSlug e ∧ e.diff = none ∧ e.pending = false := by
  unfold stepEntry at h
  split_ifs at h with heq
  · cases h
  · cases old with
    | none =>
      cases new with
      | none => exact absurd rfl heq
      | some n =>
        rw [List.mem_singleton.mp h]
        exact ⟨⟨nofun, by simp⟩, rfl, rfl⟩
    | some o =>
      cases new with
      | none =>
        rw [List.mem_singleton.mp h]
        exact ⟨⟨by simp, nofun⟩, rfl, rfl⟩
      | some n =>
        dsimp only at h
        split_ifs at h with hslug
        · rw [List.mem_singleton.mp h]
          exact ⟨⟨by simp, by simp [hslug]⟩, rfl, rfl⟩
        · rcases List.mem_pair.mp h with rfl | rfl
          · exact ⟨⟨by simp, nofun⟩, rfl, rfl⟩
          · exact ⟨⟨nofun, by simp⟩, rfl, rfl⟩

theorem bare_pinEntry {slug : String} {gone came : List ArtifactRef} (h : e ∈ pinEntry slug gone came) :
    e.diff = none ∧ e.pending = false := by
  rcases pinEntry_cases slug gone came with ⟨g, c, rfl, rfl, heq⟩ | heq
  · rw [heq, List.mem_singleton] at h
    exact h ▸ ⟨rfl, rfl⟩
  · rw [heq, List.mem_append, List.mem_map, List.mem_map] at h
    rcases h with ⟨r, -, rfl⟩ | ⟨r, -, rfl⟩ <;> exact ⟨rfl, rfl⟩

theorem ofSlug_pairRateTables {before after : List ArtifactRef}
    (h : e ∈ pairRateTables order previous candidate before after) :
    OfSlug e ∧ e.diff = none ∧ e.pending = false := by
  rcases mem_pairRateTables.mp h with ⟨p, -, hstep⟩ | hpin
  · obtain ⟨sid, -, he⟩ := mem_stepEntries.mp hstep
    exact ofSlug_stepEntry he
  · obtain ⟨slug, -, he⟩ := mem_pinEntries.mp hpin
    have hentry := pinEntry_sound he
    have hof : ∀ {l : List ArtifactRef} {r}, r ∈ l.filter (·.slug = slug) → r.slug = e.slug :=
      fun hr => by simpa [hentry.slug] using (List.mem_filter.mp hr).2
    exact ⟨⟨fun r hr => hof (hentry.before r hr), fun r hr => hof (hentry.after r hr)⟩, bare_pinEntry he⟩

theorem withDiff_fields (service : TableService) (e : RateTableChange) :
    (e.withDiff service).slug = e.slug ∧ (e.withDiff service).stepId = e.stepId ∧
      (e.withDiff service).fromRef = e.fromRef ∧ (e.withDiff service).toRef = e.toRef := by
  unfold RateTableChange.withDiff
  split
  · split_ifs <;> exact ⟨rfl, rfl, rfl, rfl⟩
  · exact ⟨rfl, rfl, rfl, rfl⟩

theorem entryOrder_withDiff (service : TableService) (e : RateTableChange) :
    entryOrder (e.withDiff service) = entryOrder e := by
  obtain ⟨hslug, hstep, hfrom, hto⟩ := withDiff_fields service e
  rw [entryOrder, entryOrder, hslug, hstep, hfrom, hto]

theorem draftChangeSummary_perm {service : TableService} {l l' : List RateTableChange} (h : l.Perm l')
    (hl : ∀ e ∈ l, OfSlug e ∧ e.diff = none ∧ e.pending = false) (baseline : Option ArtifactRef)
    (structural : Option AlgorithmDiff) :
    draftChangeSummary baseline structural (l.map (·.withDiff service)) =
      draftChangeSummary baseline structural (l'.map (·.withDiff service)) := by
  have hsorted : sortedBy entryOrder (l.map (·.withDiff service)) =
      sortedBy entryOrder (l'.map (·.withDiff service)) := by
    refine sortedBy_congr (h.map _) fun a ha b hb hab => ?_
    obtain ⟨e, he, rfl⟩ := List.mem_map.mp ha
    obtain ⟨e', he', rfl⟩ := List.mem_map.mp hb
    rw [entryOrder_withDiff, entryOrder_withDiff] at hab
    obtain ⟨hof, hdiff, hpending⟩ := hl e he
    obtain ⟨hof', hdiff', hpending'⟩ := hl e' he'
    obtain ⟨hslug, hstep, hfrom, hto⟩ := entryOrder_inj hof hof' hab
    cases e
    cases e'
    simp_all
  simp only [draftChangeSummary, hsorted]

/-! ## The order of the steps and of the pins -/

theorem tableRef?_fst {s : RatingStep} {x : String × ArtifactRef} (h : tableRef? s = some x) :
    x.1 = s.stepId := by
  unfold tableRef? at h
  split at h
  · rw [← Option.some.inj h]
  · cases h

theorem tableRefs_nodup (a : RatingAlgorithm) : ((tableRefs a).map Prod.fst).Nodup := by
  refine (stepIds_nodup a).sublist ?_
  rw [tableRefs]
  generalize a.steps = steps
  induction steps with
  | nil => exact .slnil
  | cons s steps ih =>
    cases hs : tableRef? s with
    | none =>
      rw [List.filterMap_cons_none hs]
      exact ih.trans (List.sublist_cons_self _ _)
    | some x =>
      rw [List.filterMap_cons_some hs, List.map_cons, List.map_cons, tableRef?_fst hs]
      exact ih.cons_cons _

theorem tableRefs_reordered (h : Reordered p p') : (tableRefs p).Perm (tableRefs p') :=
  h.steps.filterMap _

theorem tableRefOf_reordered (h : Reordered p p') : tableRefOf p = tableRefOf p' := by
  funext sid
  rw [tableRefOf, tableRefOf, byKey_perm (tableRefs_reordered h) (tableRefs_nodup p)]

theorem tableStepIds_reordered (h : Reordered p p') (h' : Reordered candidate candidate') :
    tableStepIds p candidate = tableStepIds p' candidate' :=
  sortedSet_congr fun k => by
    rw [List.mem_append, List.mem_append, ((tableRefs_reordered h).map _).mem_iff,
      ((tableRefs_reordered h').map _).mem_iff]

theorem stepEntries_reordered (h : Reordered p p') (h' : Reordered candidate candidate') :
    stepEntries p candidate = stepEntries p' candidate' := by
  rw [stepEntries, stepEntries, tableStepIds_reordered h h', tableRefOf_reordered h,
    tableRefOf_reordered h']

theorem namedRefs_reordered (h : Reordered p p') (h' : Reordered candidate candidate') :
    namedRefs p candidate = namedRefs p' candidate' := by
  rw [namedRefs, namedRefs, tableStepIds_reordered h h', tableRefOf_reordered h,
    tableRefOf_reordered h']

theorem unnamed_perm {pins pins' others others' named : List ArtifactRef}
    (hpins : ∀ r, r ∈ pins ↔ r ∈ pins') (hothers : ∀ r, r ∈ others ↔ r ∈ others') :
    (unnamed order pins others named).Perm (unnamed order' pins' others' named) := by
  apply (List.perm_ext_iff_of_nodup nodup_unnamed nodup_unnamed).mpr
  intro r
  rw [mem_unnamed, mem_unnamed, hpins, hothers]

theorem pinEntry_perm {slug : String} {gone gone' came came' : List ArtifactRef} (h : gone.Perm gone')
    (h' : came.Perm came') : (pinEntry slug gone came).Perm (pinEntry slug gone' came') := by
  rcases pinEntry_cases slug gone came with ⟨g, c, rfl, rfl, heq⟩ | heq
  · rw [List.singleton_perm.mp h, List.singleton_perm.mp h']
  · rcases pinEntry_cases slug gone' came' with ⟨g, c, rfl, rfl, -⟩ | heq'
    · rw [List.perm_singleton.mp h, List.perm_singleton.mp h']
    · rw [heq, heq']
      exact (h.map _).append (h'.map _)

theorem pinEntries_perm {removed removed' added added' : List ArtifactRef} (h : removed.Perm removed')
    (h' : added.Perm added') : (pinEntries removed added).Perm (pinEntries removed' added') := by
  have hslugs : sortedSet ((removed ++ added).map ArtifactRef.slug) =
      sortedSet ((removed' ++ added').map ArtifactRef.slug) :=
    sortedSet_congr fun k => ((h.append h').map _).mem_iff
  rw [pinEntries, pinEntries, hslugs]
  exact List.Perm.flatMap_left _ fun slug _ => pinEntry_perm (h.filter _) (h'.filter _)

theorem pairRateTables_perm {before before' after after' : List ArtifactRef}
    (hprevious : Option.Rel Reordered previous previous') (hcandidate : Reordered candidate candidate')
    (hbefore : ∀ r, r ∈ before ↔ r ∈ before') (hafter : ∀ r, r ∈ after ↔ r ∈ after') :
    (pairRateTables order previous candidate before after).Perm
      (pairRateTables order' previous' candidate' before' after') := by
  cases hprevious with
  | none =>
    exact pinEntries_perm (unnamed_perm hbefore hafter) (unnamed_perm hafter hbefore)
  | some h =>
    simp only [pairRateTables, Option.map_some, Option.getD_some, stepEntries_reordered h hcandidate,
      namedRefs_reordered h hcandidate]
    exact (pinEntries_perm (unnamed_perm hbefore hafter) (unnamed_perm hafter hbefore)).append_left _

theorem structural_reordered (fieldRepr : RatingStep → String → String)
    (hprevious : Option.Rel Reordered previous previous') (hcandidate : Reordered candidate candidate') :
    previous.map (fun p =>
      diffAlgorithms fieldRepr p.toRatingAlgorithmDraft candidate.toRatingAlgorithmDraft) =
    previous'.map fun p =>
      diffAlgorithms fieldRepr p.toRatingAlgorithmDraft candidate'.toRatingAlgorithmDraft := by
  cases hprevious with
  | none => rfl
  | some h => exact congrArg some (diffAlgorithms_reordered fieldRepr h hcandidate)

/-- Where the table steps' references are pinned on their side: with a baseline algorithm every table
step that differs is named with its id, every pin of one side is named on its side, once where no
step names it, no entry without a step names a pin of both sides, and neither the order of the steps
nor the order and the repetition of the pins changes the draft. -/
theorem pairRateTables_names {before after : List ArtifactRef}
    (hbefore : ∀ p ∈ previous, Pinned p before) (hafter : Pinned candidate after) :
    (∀ p ∈ previous, ∀ sid, tableRefOf p sid ≠ tableRefOf candidate sid →
      (∀ r, tableRefOf p sid = some r →
        ∃ e ∈ pairRateTables order previous candidate before after,
          e.stepId = some sid ∧ e.fromRef = some r) ∧
      ∀ r, tableRefOf candidate sid = some r →
        ∃ e ∈ pairRateTables order previous candidate before after,
          e.stepId = some sid ∧ e.toRef = some r) ∧
    (∀ r ∈ before, r ∉ after →
      ∃ e ∈ pairRateTables order previous candidate before after, e.fromRef = some r) ∧
    (∀ r ∈ after, r ∉ before →
      ∃ e ∈ pairRateTables order previous candidate before after, e.toRef = some r) ∧
    (∀ r, (r ∈ before ∧ r ∉ after) ∨ (r ∉ before ∧ r ∈ after) →
      (∀ e ∈ pairRateTables order previous candidate before after, e.stepId ≠ none → ¬ e.Names r) →
      (pairRateTables order previous candidate before after).countP (·.Names r) = 1) ∧
    (∀ e ∈ pairRateTables order previous candidate before after, e.stepId = none →
      ∀ r, e.Names r → ¬ (r ∈ before ∧ r ∈ after)) ∧
    ∀ service fieldRepr baseline, ∀ (order' : SetOrder) previous' candidate' before' after',
      Option.Rel Reordered previous previous' → Reordered candidate candidate' →
      (∀ r, r ∈ before ↔ r ∈ before') → (∀ r, r ∈ after ↔ r ∈ after') →
      changeSummary service fieldRepr order baseline previous candidate before after =
        changeSummary service fieldRepr order' baseline previous' candidate' before' after' := by
  refine ⟨fun p hp sid hne => ⟨fun r hr => ?_, fun r hr => ?_⟩, fun r hb ha => exists_from hafter hb ha,
    fun r ha hb => exists_to hbefore ha hb, fun r hside hsteps => countP_pairRateTables hside hsteps,
    fun e he hstep r hr => pin_entry_one_side he hstep hr, ?_⟩
  · obtain ⟨e, he, hstep⟩ := exists_stepEntries_from hne hr
    exact ⟨e, mem_pairRateTables.mpr (.inl ⟨p, hp, he⟩), hstep⟩
  · obtain ⟨e, he, hstep⟩ := exists_stepEntries_to hne hr
    exact ⟨e, mem_pairRateTables.mpr (.inl ⟨p, hp, he⟩), hstep⟩
  · intro service fieldRepr baseline order' previous' candidate' before' after' hprevious hcandidate
      hb ha
    rw [changeSummary, changeSummary, structural_reordered fieldRepr hprevious hcandidate]
    exact draftChangeSummary_perm (pairRateTables_perm hprevious hcandidate hb ha)
      (fun e he => ofSlug_pairRateTables he) _ _

end

/-! ## A table that is re-pinned -/

def areaRef (version : ℕ) : ArtifactRef := ⟨"rate_table", "area", version⟩

/-- An algorithm of one table step. -/
def areaAlgorithm (version : ℕ) : RatingAlgorithmDraft where
  slug := "motor"
  version := version
  inputContract := [{ name := "area", type := .string }]
  outputs := [{ name := "price_out", type := "decimal" }]
  steps := [
    { stepId := "in", consumes := [], produces := ["area"], kind := .input "area" .error },
    { stepId := "area_table", consumes := ["area"], produces := ["price"],
      kind := .table (areaRef version) ["area"] .error .none },
    { stepId := "out", consumes := ["price"], produces := [], kind := .output "price_out" ⟨.halfUp, 2⟩ }]
  subGraphs := []

def areaVersion1 : RatingAlgorithm := ⟨areaAlgorithm 1, by decide⟩

def areaVersion2 : RatingAlgorithm := ⟨areaAlgorithm 2, by decide⟩

def firstSeen : SetOrder := ⟨List.dedup, fun _ => .rfl⟩

theorem pinned_of_tableRefs {a : RatingAlgorithm} {pins : List ArtifactRef}
    (h : ∀ x ∈ tableRefs a, x.2 ∈ pins) : Pinned a pins := by
  intro sid r hr
  rw [tableRefOf, Option.map_eq_some_iff] at hr
  obtain ⟨x, hx, rfl⟩ := hr
  exact h x (byKey_eq_some hx).1

theorem areaTable_named :
    ∃ e ∈ pairRateTables firstSeen (some areaVersion1) areaVersion2 [areaRef 1] [areaRef 2],
      e.stepId = some "area_table" ∧ e.fromRef = some (areaRef 1) :=
  have hbefore : Pinned areaVersion1 [areaRef 1] := pinned_of_tableRefs (by decide)
  have hafter : Pinned areaVersion2 [areaRef 2] := pinned_of_tableRefs (by decide)
  ((pairRateTables_names (by simpa using hbefore) hafter).1 areaVersion1 rfl "area_table"
    (by decide)).1 (areaRef 1) (by decide)

/-- Without a baseline algorithm a table step that only the candidate has is named by no entry with
its id. -/
theorem not_step_named_without_baseline :
    ¬ ∀ (order : SetOrder) (previous : Option RatingAlgorithm) (candidate : RatingAlgorithm)
      (before after : List ArtifactRef), (∀ p ∈ previous, Pinned p before) → Pinned candidate after →
      ∀ sid, (previous.bind (tableRefOf · sid)) ≠ tableRefOf candidate sid →
        ∃ e ∈ pairRateTables order previous candidate before after, e.stepId = some sid := by
  intro h
  obtain ⟨e, he, hstep⟩ := h firstSeen none areaVersion2 [] [areaRef 2] nofun
    (pinned_of_tableRefs (by decide)) "area_table" (by decide)
  rcases mem_pairRateTables.mp he with ⟨p, hp, -⟩ | hpin
  · cases hp
  · rw [pinEntries_stepId hpin] at hstep
    cases hstep

end GiPricing.Summary
