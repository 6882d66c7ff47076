import GiPricing.Cache.Recency
import GiPricing.Failure.Except
import GiPricing.Order.HalfOpen
import GiPricing.Transition.Run
import GiPricing.Transition.Table

/-! # Reference tables

Tables of rows in force over half-open periods. A version is loaded whole, published and looked up as
at a date. Loads of one table may overlap, and the constraints of the database decide between them.
-/

namespace GiPricing.Data.Reference

open Cache Failure HalfOpen Transition

abbrev UUID := ℕ

abbrev Date := ℤ

inductive Status
  | draft
  | published
  deriving DecidableEq

structure ReferenceTableRow where
  id : UUID
  workspace_id : UUID
  slug : String
  key_columns : List String
  payload_columns : List String
  description : Option String
  deriving DecidableEq

structure ReferenceTableVersionRow where
  id : UUID
  reference_table_id : UUID
  version : ℕ
  status : Status
  source_note : Option String
  deriving DecidableEq

/-- What a load is given for a row, its payload as it is serialised. -/
structure Entry where
  key : String
  payload : String
  effective_from : Date
  effective_to : Option Date
  deriving DecidableEq

structure ReferenceRowRow extends Entry where
  reference_table_version_id : UUID
  deriving DecidableEq

namespace Entry

def period (e : Entry) : Span Date := ⟨e.effective_from, e.effective_to⟩

/-- `effective_interval_is_ordered`. -/
def Ordered (e : Entry) : Prop := ∀ t ∈ e.effective_to, e.effective_from < t

/-- `ex_reference_rows_no_overlap`, for two rows of one version. -/
def Apart (a b : Entry) : Prop := a.key = b.key → ¬ a.period.Meets b.period

/-- In force at a date. -/
def Covers (e : Entry) (as_at : Date) : Prop := e.effective_from ≤ as_at ∧ ∀ t ∈ e.effective_to, as_at < t

instance (e : Entry) : Decidable e.Ordered := inferInstanceAs (Decidable (∀ _ ∈ _, _))

instance (a b : Entry) : Decidable (a.Apart b) := inferInstanceAs (Decidable (_ → _))

instance (e : Entry) (as_at : Date) : Decidable (e.Covers as_at) :=
  inferInstanceAs (Decidable (_ ∧ _))

theorem covers_iff {e : Entry} {as_at : Date} : e.Covers as_at ↔ as_at ∈ e.period.members := Iff.rfl

theorem Apart.not_covers {a b : Entry} {as_at : Date} (h : a.Apart b) (hkey : a.key = b.key)
    (ha : a.Covers as_at) (hb : b.Covers as_at) : False :=
  h hkey ((Span.not_disjoint_iff ⟨as_at, covers_iff.mp ha⟩ ⟨as_at, covers_iff.mp hb⟩).mp
    (Set.not_disjoint_iff.mpr ⟨as_at, covers_iff.mp ha, covers_iff.mp hb⟩))

end Entry

/-! ## Lookups over rows -/

/-- How many rows cover a key at a date, where they are several. -/
structure ReferenceLookupError where
  count : ℕ
  key : String
  as_at : Date
  deriving DecidableEq

def matching (rows : List ReferenceRowRow) (key : String) (as_at : Date) : List ReferenceRowRow :=
  rows.filter fun row => row.key = key ∧ row.Covers as_at

def lookupAsAt (rows : List ReferenceRowRow) (key : String) (as_at : Date) :
    Except ReferenceLookupError (Option ReferenceRowRow) :=
  match matching rows key as_at with
  | [] => .ok none
  | [row] => .ok (some row)
  | found => .error ⟨found.length, key, as_at⟩

/-- The rows found, and the keys that are not, in the order given. -/
def resolveAll (keys : List String) (rows : List ReferenceRowRow) (as_at : Date) :
    Except ReferenceLookupError (OrderedDict String ReferenceRowRow × List String) :=
  keys.foldlM (fun found key => do
    match ← lookupAsAt rows key as_at with
    | some row => return (found.1.set key row, found.2)
    | none => return (found.1, found.2 ++ [key])) ([], [])

/-! ## The tables -/

inductive Refusal
  | permissionDenied
  | noKeyColumns
  | tableExists (slug : String)
  | noTable (slug : String)
  | noVersion (slug : String) (version : ℕ)
  | notPinned (slug : String) (version : Option ℕ)
  | noRow (slug : String) (version : ℕ) (key : String) (as_at : Date)
  | intervalOverlap
  | integrity
  | multipleResults
  deriving DecidableEq

/-- A load that has read the number its version will have. -/
structure Load where
  client : ℕ
  reference_table_id : UUID
  version : ℕ
  source_note : Option String
  deriving DecidableEq

structure Store where
  tables : List ReferenceTableRow
  versions : List ReferenceTableVersionRow
  rows : List ReferenceRowRow
  loads : List Load

namespace Store

def init : Store := ⟨[], [], [], []⟩

variable (s : Store)

def loadTable (workspace_id : UUID) (slug : String) : Except Refusal ReferenceTableRow :=
  require (s.tables.find? fun t => t.workspace_id = workspace_id ∧ t.slug = slug) (.noTable slug)

def numbers (table : UUID) : List ℕ :=
  (s.versions.filter fun v => v.reference_table_id = table).map ReferenceTableVersionRow.version

def rowsOf (version_id : UUID) : List ReferenceRowRow :=
  s.rows.filter fun row => row.reference_table_version_id = version_id

def createTable (permitted : Bool) (id workspace_id : UUID) (slug : String)
    (key_columns payload_columns : List String) (description : Option String) :
    Except Refusal Store := do
  ensure (permitted = true) .permissionDenied
  ensure (key_columns ≠ []) .noKeyColumns
  ensure (∀ t ∈ s.tables, ¬ (t.workspace_id = workspace_id ∧ t.slug = slug)) (.tableExists slug)
  return { s with tables := s.tables ++
    [⟨id, workspace_id, slug, key_columns, payload_columns, description⟩] }

/-- `load_version` up to the number of the version. -/
def beginLoad (permitted : Bool) (client : ℕ) (workspace_id : UUID) (slug : String)
    (source_note : Option String) : Except Refusal Store := do
  ensure (permitted = true) .permissionDenied
  let table ← s.loadTable workspace_id slug
  return { s with loads :=
    ⟨client, table.id, 1 + (s.numbers table.id).foldl max 0, source_note⟩ :: s.loads }

/-- The rest of `load_version`, with its commit. Any failure rolls the whole version back, and the
error of a row that breaks either constraint is that of an overlap. -/
def finishLoad (load : Load) (id : UUID) (entries : List Entry) : Except Refusal Store := do
  ensure (∀ v ∈ s.versions,
    ¬ (v.reference_table_id = load.reference_table_id ∧ v.version = load.version)) .integrity
  ensure ((∀ e ∈ entries, e.Ordered) ∧ entries.Pairwise Entry.Apart) .intervalOverlap
  return { s with
    versions := s.versions ++
      [⟨id, load.reference_table_id, load.version, .draft, load.source_note⟩]
    rows := s.rows ++ entries.map fun e => ⟨e, id⟩
    loads := s.loads.filter fun l => l.client ≠ load.client }

def publishVersion (permitted : Bool) (workspace_id : UUID) (slug : String) (version : ℕ) :
    Except Refusal Store := do
  let table ← s.loadTable workspace_id slug
  let row ← require (s.versions.find? fun v =>
    (v.reference_table_id, v.version) = (table.id, version) ∧ True) (.noVersion slug version)
  ensure (permitted = true) .permissionDenied
  return { s with
    versions := write ReferenceTableVersionRow.id { row with status := .published } s.versions }

/-- The version that a lookup reads: the one named, or the highest published one. -/
def pinned (table : UUID) : Option ℕ → Option ReferenceTableVersionRow
  | some version => s.versions.find? fun v =>
      (v.reference_table_id, v.version) = (table, version) ∧ v.status = .published
  | none => (s.versions.filter fun v => v.reference_table_id = table ∧ v.status = .published).argmax
      ReferenceTableVersionRow.version

def scalarOneOrNone (found : List ReferenceRowRow) : Except Refusal (Option ReferenceRowRow) :=
  ensure (found.length ≤ 1) .multipleResults >>= fun _ => .ok found.head?

def lookup (workspace_id : UUID) (slug key : String) (as_at : Date) (version : Option ℕ) :
    Except Refusal (ReferenceTableVersionRow × ReferenceRowRow) := do
  let table ← s.loadTable workspace_id slug
  let version_row ← require (s.pinned table.id version) (.notPinned slug version)
  let found ← scalarOneOrNone (matching (s.rowsOf version_row.id) key as_at)
  let row ← require found (.noRow slug version_row.version key as_at)
  return (version_row, row)

end Store

inductive Event
  | createTable (permitted : Bool) (id workspace_id : UUID) (slug : String)
      (key_columns payload_columns : List String) (description : Option String)
  | beginLoad (permitted : Bool) (client : ℕ) (workspace_id : UUID) (slug : String)
      (source_note : Option String)
  | finishLoad (client : ℕ) (id : UUID) (entries : List Entry)
  | publish (permitted : Bool) (workspace_id : UUID) (slug : String) (version : ℕ)

/-- A request that fails leaves the tables as they are. Ids are not used twice. -/
def step (s : Store) : Event → Option Store
  | .createTable permitted id workspace_id slug keys payloads description =>
    if ∃ t ∈ s.tables, t.id = id then none
    else some ((s.createTable permitted id workspace_id slug keys payloads description).toOption.getD s)
  | .beginLoad permitted client workspace_id slug note =>
    if ∃ l ∈ s.loads, l.client = client then none
    else some ((s.beginLoad permitted client workspace_id slug note).toOption.getD s)
  | .finishLoad client id entries =>
    if ∃ v ∈ s.versions, v.id = id then none
    else (s.loads.find? fun l => l.client = client).map fun load =>
      (s.finishLoad load id entries).toOption.getD
        { s with loads := s.loads.filter fun l => l.client ≠ client }
  | .publish permitted workspace_id slug version =>
    some ((s.publishVersion permitted workspace_id slug version).toOption.getD s)

/-! ## What the tables keep -/

/-- The versions of a table are numbered from one without a gap, and no key of a version has two rows
in force at one date. -/
structure Sound (s : Store) : Prop where
  slugs : (s.tables.map fun t => (t.workspace_id, t.slug)).Nodup
  ids : (s.versions.map ReferenceTableVersionRow.id).Nodup
  numbers : ∀ table, ∃ n, s.numbers table = List.range' 1 n
  loads : ∀ l ∈ s.loads, 1 ≤ l.version ∧ l.version ≤ (s.numbers l.reference_table_id).length + 1
  owned : ∀ row ∈ s.rows, row.reference_table_version_id ∈ s.versions.map ReferenceTableVersionRow.id
  ordered : ∀ row ∈ s.rows, row.Ordered
  apart : ∀ id, (s.rowsOf id).Pairwise fun a b => a.Apart b.toEntry

/-- A version after some steps: published at most. -/
structure Later (old new : ReferenceTableVersionRow) : Prop where
  same : new = old ∨ new = { old with status := .published }
  frozen : old.status = .published → new = old

/-- Nothing that is stored is changed or lost, a version's status apart. -/
structure Extends (s s' : Store) : Prop where
  tables : s.tables <+: s'.tables
  versions : ∃ f tail, s'.versions = s.versions.map f ++ tail ∧ ∀ v ∈ s.versions, Later v (f v)
  rows : ∃ tail, s'.rows = s.rows ++ tail ∧
    ∀ row ∈ tail, row.reference_table_version_id ∉ s.versions.map ReferenceTableVersionRow.id

section Steps

variable {s s' : Store}

theorem Extends.refl (s : Store) : Extends s s :=
  ⟨List.prefix_rfl, ⟨id, [], by simp, fun _ _ => ⟨Or.inl rfl, fun _ => rfl⟩⟩, ⟨[], by simp⟩⟩

theorem Sound.of_same (h : Sound s) (htables : s'.tables = s.tables) (hversions : s'.versions = s.versions)
    (hrows : s'.rows = s.rows)
    (hloads : ∀ l ∈ s'.loads, 1 ≤ l.version ∧ l.version ≤ (s.numbers l.reference_table_id).length + 1) :
    Sound s' ∧ Extends s s' := by
  cases s'
  simp only at htables hversions hrows
  subst htables hversions hrows
  refine ⟨⟨h.slugs, h.ids, h.numbers, hloads, h.owned, h.ordered, h.apart⟩, ?_⟩
  exact ⟨List.prefix_rfl, ⟨id, [], by simp, fun _ _ => ⟨Or.inl rfl, fun _ => rfl⟩⟩, ⟨[], by simp⟩⟩

theorem Sound.createTable (h : Sound s) {permitted : Bool} {id workspace_id : UUID} {slug : String}
    {keys payloads : List String} {description : Option String}
    (hs : s.createTable permitted id workspace_id slug keys payloads description = .ok s') :
    Sound s' ∧ Extends s s' := by
  simp only [Store.createTable, ensure_bind_eq_ok, pure_eq_ok] at hs
  obtain ⟨-, -, hfresh, rfl⟩ := hs
  refine ⟨⟨?_, h.ids, h.numbers, h.loads, h.owned, h.ordered, h.apart⟩,
    ⟨List.prefix_append .., (Extends.refl s).versions, (Extends.refl s).rows⟩⟩
  rw [List.map_append]
  refine List.nodup_append.mpr ⟨h.slugs, List.nodup_singleton _, ?_⟩
  intro key hkey key' hkey' heq
  obtain ⟨t, ht, rfl⟩ := List.mem_map.mp hkey
  rw [List.map_singleton, List.mem_singleton] at hkey'
  obtain ⟨hworkspace, hslug⟩ := Prod.mk.inj (heq.trans hkey')
  exact hfresh t ht ⟨hworkspace, hslug⟩

theorem foldl_max_range (n : ℕ) : (List.range' 1 n).foldl max 0 = n := by
  induction n with
  | zero => rfl
  | succ n ih =>
    rw [List.range'_concat, List.foldl_append, ih]
    simp only [List.foldl_cons, List.foldl_nil]
    omega

theorem Sound.beginLoad (h : Sound s) {permitted : Bool} {client : ℕ} {workspace_id : UUID}
    {slug : String} {note : Option String}
    (hs : s.beginLoad permitted client workspace_id slug note = .ok s') : Sound s' ∧ Extends s s' := by
  simp only [Store.beginLoad, ensure_bind_eq_ok] at hs
  obtain ⟨-, hs⟩ := hs
  obtain ⟨table, -, hs⟩ := bind_eq_ok.mp hs
  obtain rfl := pure_eq_ok.mp hs
  refine h.of_same rfl rfl rfl fun l hl => ?_
  rcases List.mem_cons.mp hl with rfl | hl
  · obtain ⟨n, hn⟩ := h.numbers table.id
    simp only [hn, foldl_max_range, List.length_range']
    omega
  · exact h.loads l hl

/-- The new rows are the rows of the new version. -/
theorem filter_rows (entries : List Entry) (version_id version : UUID) :
    ((entries.map fun e => (⟨e, version_id⟩ : ReferenceRowRow)).filter
      fun row => row.reference_table_version_id = version) =
        if version_id = version then entries.map fun e => ⟨e, version_id⟩ else [] := by
  split_ifs with heq
  · exact List.filter_eq_self.mpr fun row hrow => by
      obtain ⟨e, -, rfl⟩ := List.mem_map.mp hrow
      exact decide_eq_true heq
  · exact List.filter_eq_nil_iff.mpr fun row hrow => by
      obtain ⟨e, -, rfl⟩ := List.mem_map.mp hrow
      simpa using heq

theorem Sound.finishLoad (h : Sound s) {load : Load} (hload : load ∈ s.loads) {version_id : UUID}
    {entries : List Entry} (hfresh : ¬ ∃ v ∈ s.versions, v.id = version_id)
    (hs : s.finishLoad load version_id entries = .ok s') : Sound s' ∧ Extends s s' := by
  simp only [Store.finishLoad, ensure_bind_eq_ok, pure_eq_ok] at hs
  obtain ⟨hnumber, ⟨hordered, hapart⟩, rfl⟩ := hs
  have hmem : version_id ∉ s.versions.map ReferenceTableVersionRow.id := by simpa using hfresh
  -- Another load that committed since would have taken the number.
  have hnext : load.version = (s.numbers load.reference_table_id).length + 1 := by
    obtain ⟨n, hn⟩ := h.numbers load.reference_table_id
    obtain ⟨hlow, hhigh⟩ := h.loads load hload
    by_contra hne
    have hin : load.version ∈ s.numbers load.reference_table_id := by
      rw [hn, List.length_range'] at hhigh hne
      rw [hn, List.mem_range'_1]
      omega
    obtain ⟨v, hv, heq⟩ := List.mem_map.mp hin
    obtain ⟨hv, htable⟩ := List.mem_filter.mp hv
    exact hnumber v hv ⟨of_decide_eq_true htable, heq⟩
  set new : ReferenceTableVersionRow :=
    ⟨version_id, load.reference_table_id, load.version, .draft, load.source_note⟩ with hnew
  have hnumbers : ∀ table, ((s.versions ++ [new]).filter fun v => v.reference_table_id = table).map
      ReferenceTableVersionRow.version =
        s.numbers table ++ if load.reference_table_id = table then [load.version] else [] := by
    intro table
    rw [List.filter_append, List.map_append, Store.numbers]
    by_cases htable : load.reference_table_id = table <;> simp [hnew, htable]
  refine ⟨⟨h.slugs, ?_, fun table => ?_, fun l hl => ?_, fun row hrow => ?_, fun row hrow => ?_,
    fun version => ?_⟩, List.prefix_rfl, ⟨id, _, by rw [List.map_id], fun _ _ =>
      ⟨Or.inl rfl, fun _ => rfl⟩⟩, ⟨_, rfl, fun row hrow => ?_⟩⟩
  · rw [List.map_append]
    refine List.nodup_append.mpr ⟨h.ids, List.nodup_singleton _, fun a ha b hb hab => hmem ?_⟩
    obtain rfl : b = version_id := List.mem_singleton.mp hb
    exact hab ▸ ha
  · obtain ⟨n, hn⟩ := h.numbers table
    rw [Store.numbers, hnumbers]
    split_ifs with htable
    · subst htable
      rw [hn, List.length_range'] at hnext
      refine ⟨n + 1, ?_⟩
      rw [hn, hnext, List.range'_concat]
      congr 2
      omega
    · exact ⟨n, by rw [hn, List.append_nil]⟩
  · obtain ⟨hlow, hhigh⟩ := h.loads l (List.mem_of_mem_filter hl)
    rw [Store.numbers, hnumbers, List.length_append]
    exact ⟨hlow, by omega⟩
  · rw [List.map_append]
    rcases List.mem_append.mp hrow with hrow | hrow
    · exact List.mem_append_left _ (h.owned row hrow)
    · obtain ⟨e, -, rfl⟩ := List.mem_map.mp hrow
      exact List.mem_append_right _ (List.mem_singleton_self _)
  · rcases List.mem_append.mp hrow with hrow | hrow
    · exact h.ordered row hrow
    · obtain ⟨e, he, rfl⟩ := List.mem_map.mp hrow
      exact hordered e he
  · rw [Store.rowsOf, List.filter_append, filter_rows]
    split_ifs with heq
    · have hnone : (s.rows.filter fun row => row.reference_table_version_id = version) = [] :=
        List.filter_eq_nil_iff.mpr fun row hrow hversion => hmem (by
          rw [heq, ← of_decide_eq_true hversion]
          exact h.owned row hrow)
      rw [hnone, List.nil_append]
      exact List.pairwise_map.mpr hapart
    · rw [List.append_nil]
      exact h.apart version
  · obtain ⟨e, -, rfl⟩ := List.mem_map.mp hrow
    exact hmem

theorem Sound.publish (h : Sound s) {permitted : Bool} {workspace_id : UUID} {slug : String}
    {version : ℕ} (hs : s.publishVersion permitted workspace_id slug version = .ok s') :
    Sound s' ∧ Extends s s' := by
  obtain ⟨table, -, hs⟩ := bind_eq_ok.mp hs
  obtain ⟨row, hrow, hs⟩ := require_bind_eq_ok.mp hs
  simp only [ensure_bind_eq_ok, pure_eq_ok] at hs
  obtain ⟨-, rfl⟩ := hs
  have hmem := List.mem_of_find?_eq_some hrow
  set published : ReferenceTableVersionRow := { row with status := .published } with hpublished
  have hlater : ∀ v ∈ s.versions, Later v (if v.id = published.id then published else v) := by
    intro v hv
    split_ifs with heq
    · obtain rfl : v = row := List.inj_on_of_nodup_map h.ids hv hmem heq
      exact ⟨Or.inr rfl, fun hstatus => by rw [hpublished, ← hstatus]⟩
    · exact ⟨Or.inl rfl, fun _ => rfl⟩
  have hids : (write ReferenceTableVersionRow.id published s.versions).map
      ReferenceTableVersionRow.id = s.versions.map ReferenceTableVersionRow.id := keys_write
  have hnumbers : ∀ t, ((write ReferenceTableVersionRow.id published s.versions).filter
      fun v => v.reference_table_id = t).map ReferenceTableVersionRow.version = s.numbers t := by
    intro t
    rw [write, List.filter_map, List.map_map, Store.numbers]
    have hfilter : s.versions.filter ((fun v => decide (v.reference_table_id = t)) ∘
        fun v => if v.id = published.id then published else v) =
          s.versions.filter fun v => v.reference_table_id = t := by
      refine List.filter_congr fun v hv => ?_
      rcases (hlater v hv).same with heq | heq <;> simp only [Function.comp_apply, heq]
    rw [hfilter]
    refine List.map_congr_left fun v hv => ?_
    rcases (hlater v (List.mem_of_mem_filter hv)).same with heq | heq <;>
      simp only [Function.comp_apply, heq]
  refine ⟨⟨h.slugs, ?_, fun t => ?_, fun l hl => ?_, fun r hr => ?_, h.ordered, h.apart⟩,
    List.prefix_rfl, ⟨_, [], (List.append_nil _).symm, hlater⟩, ⟨[], by simp⟩⟩
  · rw [hids]
    exact h.ids
  · rw [Store.numbers, hnumbers]
    exact h.numbers t
  · rw [Store.numbers, hnumbers]
    exact h.loads l hl
  · rw [hids]
    exact h.owned r hr

theorem sound_init : Sound .init where
  slugs := List.nodup_nil
  ids := List.nodup_nil
  numbers _ := ⟨0, rfl⟩
  loads := by rintro l ⟨⟩
  owned := by rintro row ⟨⟩
  ordered := by rintro row ⟨⟩
  apart _ := List.Pairwise.nil

theorem sound_step (s : Store) (e : Event) (s' : Store) (h : Sound s) (hstep : step s e = some s') :
    Sound s' ∧ Extends s s' := by
  have hsame : Sound s ∧ Extends s s := ⟨h, .refl s⟩
  cases e with
  | createTable permitted table_id workspace_id slug keys payloads description =>
    simp only [step] at hstep
    split_ifs at hstep
    cases hstep
    cases hs : s.createTable permitted table_id workspace_id slug keys payloads description with
    | error e => exact hsame
    | ok s' => exact h.createTable hs
  | beginLoad permitted client workspace_id slug note =>
    simp only [step] at hstep
    split_ifs at hstep
    cases hstep
    cases hs : s.beginLoad permitted client workspace_id slug note with
    | error e => exact hsame
    | ok s' => exact h.beginLoad hs
  | finishLoad client version_id entries =>
    simp only [step] at hstep
    split_ifs at hstep with hfresh
    obtain ⟨load, hload, rfl⟩ := Option.map_eq_some_iff.mp hstep
    cases hs : s.finishLoad load version_id entries with
    | error e => exact h.of_same rfl rfl rfl fun l hl => h.loads l (List.mem_of_mem_filter hl)
    | ok s' => exact h.finishLoad (List.mem_of_find?_eq_some hload) hfresh hs
  | publish permitted workspace_id slug version =>
    cases hstep
    cases hs : s.publishVersion permitted workspace_id slug version with
    | error e => exact hsame
    | ok s' => exact h.publish hs

/-- Over every interleaving of loads and publications. -/
theorem versions_kept (es : List Event) :
    Always step (fun s _ s' => Sound s' ∧ Extends s s') .init es :=
  always_of_preserves (fun s e s' h hstep => ⟨(sound_step s e s' h hstep).1, sound_step s e s' h hstep⟩)
    sound_init es

end Steps

/-! ## Lookups over runs -/

section Lookups

variable {s s' : Store} {es : List Event}

theorem sound_run (h : run step .init es = some s) : Sound s :=
  run_preserves (fun s e s' hs hstep => (sound_step s e s' hs hstep).1) sound_init h

theorem Sound.keys_nodup (h : Sound s) :
    (s.versions.map fun v => (v.reference_table_id, v.version)).Nodup := by
  refine List.Nodup.map_on (fun v hv w hw heq => ?_) h.ids.of_map
  obtain ⟨htable, hversion⟩ := Prod.mk.inj heq
  obtain ⟨n, hn⟩ := h.numbers v.reference_table_id
  have hnodup : (s.numbers v.reference_table_id).Nodup := hn ▸ List.nodup_range' ..
  exact List.inj_on_of_nodup_map hnodup (List.mem_filter.mpr ⟨hv, decide_eq_true rfl⟩)
    (List.mem_filter.mpr ⟨hw, decide_eq_true htable.symm⟩) hversion

/-- A published version that a lookup reads, with its rows. -/
def Reads (workspace_id : UUID) (slug : String) (version : ℕ) (table : ReferenceTableRow)
    (v : ReferenceTableVersionRow) (rows : List ReferenceRowRow) (s : Store) : Prop :=
  s.loadTable workspace_id slug = .ok table ∧ s.pinned table.id (some version) = some v ∧
    s.rowsOf v.id = rows

theorem Reads.extends {workspace_id : UUID} {slug : String} {version : ℕ} {table : ReferenceTableRow}
    {v : ReferenceTableVersionRow} {rows : List ReferenceRowRow}
    (h : Reads workspace_id slug version table v rows s) (hs : Sound s) (hs' : Sound s')
    (he : Extends s s') : Reads workspace_id slug version table v rows s' := by
  obtain ⟨htable, hpinned, rfl⟩ := h
  obtain ⟨more, hmore⟩ := he.tables
  obtain ⟨f, tail, hversions, hlater⟩ := he.versions
  obtain ⟨newer, hrows, hnewer⟩ := he.rows
  obtain ⟨hv, hkey, hpublished⟩ := (find_eq_some hs.keys_nodup).mp hpinned
  refine ⟨?_, (find_eq_some hs'.keys_nodup).mpr ⟨?_, hkey, hpublished⟩, ?_⟩
  · rw [Store.loadTable, require_eq_ok] at htable ⊢
    rw [← hmore, List.find?_append, htable]
    rfl
  · rw [hversions, ← (hlater v hv).frozen hpublished]
    exact List.mem_append_left _ (List.mem_map.mpr ⟨v, hv, by rw [(hlater v hv).frozen hpublished]⟩)
  · have hnone : newer.filter (fun row => row.reference_table_version_id = v.id) = [] :=
      List.filter_eq_nil_iff.mpr fun row hrow heq => hnewer row hrow
        (of_decide_eq_true heq ▸ List.mem_map_of_mem hv)
    rw [Store.rowsOf, hrows, List.filter_append, hnone, List.append_nil]
    rfl

/-- What a pinned lookup of a published version answers never changes. -/
theorem pinned_lookup_stable (es es' : List Event) (s s' : Store) (h : run step .init es = some s)
    (h' : run step s es' = some s') (workspace_id : UUID) (slug key : String) (as_at : Date)
    (version : ℕ) (table : ReferenceTableRow) (v : ReferenceTableVersionRow)
    (htable : s.loadTable workspace_id slug = .ok table)
    (hpinned : s.pinned table.id (some version) = some v) :
    s'.lookup workspace_id slug key as_at (some version) =
      s.lookup workspace_id slug key as_at (some version) := by
  have hpreserves : ∀ u e u', Sound u ∧ Reads workspace_id slug version table v (s.rowsOf v.id) u →
      step u e = some u' → Sound u' ∧ Reads workspace_id slug version table v (s.rowsOf v.id) u' := by
    intro u e u' hu hstep
    obtain ⟨hsound, hextends⟩ := sound_step u e u' hu.1 hstep
    exact ⟨hsound, hu.2.extends hu.1 hsound hextends⟩
  obtain ⟨-, htable', hpinned', hrows⟩ :=
    run_preserves hpreserves ⟨sound_run h, htable, hpinned, rfl⟩ h'
  simp only [Store.lookup, htable, htable', bind, Except.bind, hpinned, hpinned', require,
    Option.elim_some, hrows]

/-- A version loaded and published. -/
def loaded : List Event :=
  [.createTable true 1 7 "vehicle_group" ["abi_code"] ["group"] none,
    .beginLoad true 0 7 "vehicle_group" none, .finishLoad 0 3 [⟨"17A", "12", 0, none⟩],
    .publish true 7 "vehicle_group" 1]

theorem pinned_lookup_stable_loaded : ∃ s, run step .init loaded = some s ∧
    ∀ es' s', run step s es' = some s' → s'.lookup 7 "vehicle_group" "17A" 5 (some 1) =
      .ok (⟨3, 1, 1, .published, none⟩, ⟨⟨"17A", "12", 0, none⟩, 3⟩) := by
  obtain ⟨s, hs⟩ : ∃ s, run step .init loaded = some s := ⟨_, rfl⟩
  refine ⟨s, hs, fun es' s' hs' => ?_⟩
  rw [pinned_lookup_stable loaded es' s s' hs hs' 7 "vehicle_group" "17A" 5 1
    ⟨1, 7, "vehicle_group", ["abi_code"], ["group"], none⟩ ⟨3, 1, 1, .published, none⟩
    (by cases hs; rfl) (by cases hs; rfl)]
  cases hs
  rfl

theorem Sound.matching_le_one (h : Sound s) (id : UUID) (key : String) (as_at : Date) :
    (matching (s.rowsOf id) key as_at).length ≤ 1 := by
  have hapart := (h.apart id).sublist (List.filter_sublist
    (p := fun row : ReferenceRowRow => row.key = key ∧ row.Covers as_at))
  have hcover : ∀ row ∈ matching (s.rowsOf id) key as_at, row.key = key ∧ row.Covers as_at :=
    fun row hrow => of_decide_eq_true (List.mem_filter.mp hrow).2
  change (matching (s.rowsOf id) key as_at).Pairwise _ at hapart
  rcases hfound : matching (s.rowsOf id) key as_at with _ | ⟨a, _ | ⟨b, rest⟩⟩
  · exact Nat.zero_le 1
  · exact le_rfl
  · rw [hfound] at hapart hcover
    obtain ⟨ha, hcovers⟩ := hcover a (by simp)
    obtain ⟨hb, hcovers'⟩ := hcover b (by simp)
    have hab := (List.pairwise_cons.mp hapart).1 b List.mem_cons_self
    exact (hab.not_covers (ha.trans hb.symm) hcovers hcovers').elim

theorem lookupAsAt_eq {rows : List ReferenceRowRow} {key : String} {as_at : Date}
    (h : (matching rows key as_at).length ≤ 1) :
    lookupAsAt rows key as_at = .ok (matching rows key as_at).head? := by
  rw [lookupAsAt]
  rcases hfound : matching rows key as_at with _ | ⟨a, _ | ⟨b, rest⟩⟩
  · rfl
  · rfl
  · simp [hfound] at h

/-- No key has two answers: the lookup of the database is that of the rows, which never raises. -/
theorem lookup_single (es : List Event) (s : Store) (h : run step .init es = some s)
    (workspace_id : UUID) (slug key : String) (as_at : Date) (version : Option ℕ) :
    (∀ id, ∃ found, lookupAsAt (s.rowsOf id) key as_at = .ok found) ∧
      s.lookup workspace_id slug key as_at version = (do
        let table ← s.loadTable workspace_id slug
        let v ← require (s.pinned table.id version) (.notPinned slug version)
        let found ← (lookupAsAt (s.rowsOf v.id) key as_at).mapError fun _ => .multipleResults
        let row ← require found (.noRow slug v.version key as_at)
        return (v, row)) := by
  have hle := fun id => (sound_run h).matching_le_one id key as_at
  refine ⟨fun id => ⟨_, lookupAsAt_eq (hle id)⟩, ?_⟩
  have hscalar : ∀ id, Store.scalarOneOrNone (matching (s.rowsOf id) key as_at) =
      (lookupAsAt (s.rowsOf id) key as_at).mapError fun _ => .multipleResults := by
    intro id
    rw [lookupAsAt_eq (hle id), Store.scalarOneOrNone, ensure, if_pos (hle id)]
    rfl
  simp only [Store.lookup, hscalar]

theorem lookup_single_loaded : ∃ s, run step .init loaded = some s ∧
    ∀ id, ∃ found, lookupAsAt (s.rowsOf id) "17A" 5 = .ok found := by
  obtain ⟨s, hs⟩ : ∃ s, run step .init loaded = some s := ⟨_, rfl⟩
  exact ⟨s, hs, (lookup_single loaded s hs 7 "vehicle_group" "17A" 5 none).1⟩

/-- Every key is resolved or reported missing, in the order given and as often as it was. -/
theorem resolve_all_splits (es : List Event) (s : Store) (h : run step .init es = some s) (id : UUID)
    (keys : List String) (as_at : Date) :
    ∃ found, resolveAll keys (s.rowsOf id) as_at = .ok (found,
        keys.filter fun key => (matching (s.rowsOf id) key as_at).head? = none) ∧
      ∀ key row, found.get key = some row ↔
        key ∈ keys ∧ lookupAsAt (s.rowsOf id) key as_at = .ok (some row) := by
  have hlookup := fun key => lookupAsAt_eq ((sound_run h).matching_le_one id key as_at)
  rw [resolveAll]
  induction keys using List.reverseRecOn with
  | nil => exact ⟨[], rfl, by simp [OrderedDict.get]⟩
  | append_singleton keys key ih =>
    obtain ⟨found, hfound, hget⟩ := ih
    rw [List.foldlM_append, hfound, List.filter_append]
    simp only [List.foldlM_cons, List.foldlM_nil, hlookup, bind, Except.bind, pure, Except.pure]
    cases hrow : (matching (s.rowsOf id) key as_at).head? with
    | none =>
      refine ⟨found, by rw [List.filter_singleton, hrow]; rfl, fun key' row => ?_⟩
      rw [hget, hlookup, List.mem_append, List.mem_singleton]
      constructor
      · rintro ⟨hkey, heq⟩
        exact ⟨Or.inl hkey, heq⟩
      · rintro ⟨hkey | rfl, heq⟩
        · exact ⟨hkey, heq⟩
        · rw [hrow] at heq
          cases heq
    | some found_row =>
      refine ⟨found.set key found_row, ?_, fun key' row => ?_⟩
      · rw [List.filter_singleton, hrow]
        simp
      · rw [OrderedDict.get_set]
        split_ifs with heq
        · rw [heq, hrow]
          simp
        · rw [hget, hlookup, List.mem_append, List.mem_singleton, or_iff_left heq]

theorem resolve_all_splits_loaded : ∃ s found, run step .init loaded = some s ∧
    resolveAll ["17B", "17A"] (s.rowsOf 3) 5 = .ok (found, ["17B"]) := by
  obtain ⟨s, hs⟩ : ∃ s, run step .init loaded = some s := ⟨_, rfl⟩
  obtain ⟨found, hfound, -⟩ := resolve_all_splits loaded s hs 3 ["17B", "17A"] 5
  refine ⟨s, found, hs, hfound.trans ?_⟩
  cases hs
  rfl

end Lookups

end GiPricing.Data.Reference
