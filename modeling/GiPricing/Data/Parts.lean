import GiPricing.Classify.Slices
import GiPricing.Data.Splits

/-! # The parts of a split over the tables of a version

A job takes one part of every table, and is refused where some table has no row in that part. The
parts therefore fit together only where no table leaves a part without rows.
-/

namespace GiPricing.Data

open Failure Classify

variable {V D : Type} (p : Primitives V D) (params : SplitParams)
variable {frame : Frame V D} {tables : List (Frame V D)} {part : String}

/-! ## The parts of one table -/

theorem mem_sortedNames {names : List String} {name : String} :
    name ∈ sortedNames names ↔ name ∈ names := List.mem_insertionSort _

theorem shares_ne_nil : (shares p params).keys ≠ [] := by
  unfold shares
  split
  · split_ifs with h
    · simp [defaultShares, Dict.keys]
    · simpa [Dict.keys] using h
  · simp [defaultShares, Dict.keys]

theorem declared_ne_nil : declared p params ≠ [] := by
  unfold declared
  split_ifs
  · exact List.cons_ne_nil _ _
  · intro h
    refine shares_ne_nil p params (List.eq_nil_iff_forall_not_mem.mpr fun name hname => ?_)
    have := mem_sortedNames.mpr hname
    rw [h] at this
    cases this

theorem declared_nodup : (declared p params).Nodup := by
  unfold declared
  split_ifs
  · decide
  · exact (List.perm_insertionSort _ _).nodup_iff.mpr (shares p params).nodup

theorem edgesFrom_names (share : String → ℚ) (total running : ℚ) (names : List String) :
    (edgesFrom p share total running names).map Prod.fst = names := by
  induction names generalizing running with
  | nil => rfl
  | cons name names ih => rw [edgesFrom, List.map_cons, ih]

theorem cumulative_names {fractions : Dict ℚ} {edges : List (String × ℚ)}
    (h : cumulative p fractions = .ok edges) : edges.map Prod.fst = sortedNames fractions.keys := by
  obtain ⟨-, -, h⟩ := bind_eq_ok.mp h
  obtain ⟨-, -, h⟩ := bind_eq_ok.mp h
  obtain ⟨-, -, h⟩ := bind_eq_ok.mp h
  cases h
  exact edgesFrom_names ..

theorem pick_mem {u lower : ℚ} {edges : List (String × ℚ)} {found : Option String} {name : String}
    (h : pick u lower edges found = some name) :
    found = some name ∨ name ∈ edges.map Prod.fst := by
  induction edges generalizing lower found with
  | nil => exact Or.inl h
  | cons edge edges ih =>
    obtain ⟨own, upper⟩ := edge
    rw [pick] at h
    rcases ih h with hfound | hmem
    · split_ifs at hfound
      · cases hfound
        exact Or.inr List.mem_cons_self
      · exact Or.inl hfound
    · exact Or.inr (List.mem_cons_of_mem _ hmem)

theorem partAt_mem {edges : List (String × ℚ)} (h : edges ≠ []) (u : ℚ) :
    partAt edges u ∈ edges.map Prod.fst := by
  unfold partAt
  cases hpick : pick u 0 edges none with
  | none =>
    rw [List.getLast?_eq_some_getLast h]
    exact List.mem_map_of_mem (List.getLast_mem h)
  | some name =>
    rcases pick_mem hpick with h' | h'
    · cases h'
    · exact h'

theorem partAt_declared (hm : method params ≠ "temporal") {edges : List (String × ℚ)}
    (h : cumulative p (shares p params) = .ok edges) (u : ℚ) :
    partAt edges u ∈ declared p params := by
  have hnames : edges.map Prod.fst = declared p params := by
    rw [cumulative_names p h, declared, if_neg hm]
  rw [← hnames]
  refine partAt_mem (fun hnil => declared_ne_nil p params ?_) u
  rw [← hnames, hnil, List.map_nil]

theorem assignParts_spec {a : List String} (h : assignParts p params frame = .ok a) :
    a.length = frame.rows.length ∧ ∀ name ∈ a, name ∈ declared p params := by
  unfold assignParts at h
  split_ifs at h with ht hg hr
  · obtain ⟨time_column, -, h⟩ := bind_eq_ok.mp h
    obtain ⟨cutoff, -, h⟩ := bind_eq_ok.mp h
    obtain ⟨dtype, -, h⟩ := bind_eq_ok.mp h
    obtain ⟨boundary, -, h⟩ := bind_eq_ok.mp h
    cases h
    refine ⟨List.length_map .., fun name hname => ?_⟩
    obtain ⟨row, -, rfl⟩ := List.mem_map.mp hname
    rw [declared, if_pos ht]
    split_ifs <;> simp
  · obtain ⟨edges, hedges, h⟩ := bind_eq_ok.mp h
    obtain ⟨key, -, h⟩ := bind_eq_ok.mp h
    obtain ⟨dtype, -, h⟩ := bind_eq_ok.mp h
    cases h
    refine ⟨List.length_map .., fun name hname => ?_⟩
    obtain ⟨row, -, rfl⟩ := List.mem_map.mp hname
    exact partAt_declared p params ht hedges _
  · obtain ⟨edges, hedges, h⟩ := bind_eq_ok.mp h
    cases h
    refine ⟨by rw [List.length_map, List.length_range], fun name hname => ?_⟩
    obtain ⟨i, -, rfl⟩ := List.mem_map.mp hname
    exact partAt_declared p params ht hedges _

theorem assignParts_grouped (hm : method params = "grouped_by_key") {a : List String}
    (h : assignParts p params frame = .ok a) : ∃ edges key,
      cumulative p (shares p params) = .ok edges ∧ params.key_column = some key ∧
      a = frame.rows.map fun row => keyPart p edges (params.seed.getD 0) (row key) := by
  unfold assignParts at h
  rw [if_neg (by rw [hm]; decide), if_pos hm] at h
  obtain ⟨edges, hedges, h⟩ := bind_eq_ok.mp h
  obtain ⟨key, hkey, h⟩ := bind_eq_ok.mp h
  obtain ⟨dtype, -, h⟩ := bind_eq_ok.mp h
  cases h
  exact ⟨edges, key, hedges, (Option.filter_eq_some_iff.mp (require_eq_ok.mp hkey)).1, rfl⟩

/-- The parts of the rows, and none where the split of the table is refused. -/
def assignment (frame : Frame V D) : List String :=
  match assignParts p params frame with
  | .ok a => a
  | .error _ => []

theorem assignment_eq {a : List String} (h : assignParts p params frame = .ok a) :
    assignment p params frame = a := by
  rw [assignment, h]

theorem assignParts_of_mem (h : part ∈ assignment p params frame) :
    assignParts p params frame = .ok (assignment p params frame) := by
  unfold assignment at h ⊢
  cases ha : assignParts p params frame with
  | ok a => rfl
  | error e =>
    rw [ha] at h
    cases h

theorem partFrames_perm {a parts : List String} (hlength : a.length = frame.rows.length)
    (hnodup : parts.Nodup) (hparts : ∀ name ∈ a, name ∈ parts) :
    (parts.flatMap fun part => (partFrame frame a part).rows).Perm frame.rows := by
  have hslices : (parts.flatMap (slice Prod.snd (frame.rows.zip a))).Perm (frame.rows.zip a) :=
    slices_perm hnodup fun x hx => hparts _ (List.of_mem_zip hx).2
  have hmap := hslices.map Prod.fst
  rwa [List.map_flatMap, List.map_fst_zip hlength.ge] at hmap

theorem parts_perm {a : List String} (h : assignParts p params frame = .ok a) {parts : List String}
    (hparts : parts.Perm (declared p params)) :
    (parts.flatMap fun part => (partFrame frame a part).rows).Perm frame.rows := by
  obtain ⟨hlength, hdeclared⟩ := assignParts_spec p params h
  exact partFrames_perm hlength (hparts.nodup_iff.mpr (declared_nodup p params)) fun name hname =>
    hparts.mem_iff.mpr (hdeclared name hname)

theorem mem_partFrame_map {f : (String → V) → String} {row : String → V} :
    row ∈ (partFrame frame (frame.rows.map f) part).rows ↔ row ∈ frame.rows ∧ f row = part := by
  have hzip : frame.rows.zip (frame.rows.map f) = frame.rows.map fun row => (row, f row) := by
    rw [List.zip_eq_zipWith, List.zipWith_map_right, List.zipWith_self]
  simp only [partFrame, hzip, List.mem_map, List.mem_filter, decide_eq_true_eq]
  constructor
  · rintro ⟨-, ⟨⟨r, hr, rfl⟩, hpart⟩, rfl⟩
    exact ⟨hr, hpart⟩
  · rintro ⟨hr, hpart⟩
    exact ⟨_, ⟨⟨row, hr, rfl⟩, hpart⟩, rfl⟩

/-! ## The jobs -/

theorem lookup_map_pair {β : Type} (f : String → β) (names : List String) (k : String) :
    (names.map fun n => (n, f n)).lookup k = if k ∈ names then some (f k) else none := by
  induction names with
  | nil => rfl
  | cons n names ih =>
    rw [List.map_cons, List.lookup_cons]
    by_cases h : k = n
    · simp [h]
    · rw [beq_false_of_ne h]
      simp [h, ih]

theorem materialiseSplit_eq_ok {out : List (Frame V D)} :
    materialiseSplit p params part tables = .ok out ↔
      (∀ frame ∈ tables, part ∈ assignment p params frame) ∧
      out = tables.map fun frame => partFrame frame (assignment p params frame) part := by
  induction tables generalizing out with
  | nil => simp [materialiseSplit, eq_comm]
  | cons frame tables ih =>
    constructor
    · intro h
      obtain ⟨parts, hparts, h⟩ := bind_eq_ok.mp h
      obtain ⟨selected, hselected, h⟩ := bind_eq_ok.mp h
      obtain ⟨written, hwritten, h⟩ := bind_eq_ok.mp h
      cases h
      obtain ⟨a, ha, hparts⟩ := bind_eq_ok.mp (mapError_eq_ok.mp hparts)
      cases hparts
      have hlookup := require_eq_ok.mp hselected
      rw [lookup_map_pair] at hlookup
      split_ifs at hlookup with hmem
      cases hlookup
      obtain ⟨hall, rfl⟩ := ih.mp hwritten
      rw [List.map_cons, assignment_eq p params ha]
      refine ⟨fun f hf => ?_, rfl⟩
      rcases List.mem_cons.mp hf with rfl | hf
      · rw [assignment_eq p params ha]
        exact List.mem_dedup.mp (mem_sortedNames.mp hmem)
      · exact hall f hf
    · rintro ⟨hall, rfl⟩
      have hpart := hall frame List.mem_cons_self
      have ha := assignParts_of_mem p params hpart
      have hlookup := lookup_map_pair
        (partFrame frame (assignment p params frame))
        (sortedNames (assignment p params frame).dedup) part
      rw [if_pos (mem_sortedNames.mpr (List.mem_dedup.mpr hpart))] at hlookup
      refine bind_eq_ok.mpr ⟨_, mapError_eq_ok.mpr (bind_eq_ok.mpr ⟨_, ha, rfl⟩), ?_⟩
      refine bind_eq_ok.mpr ⟨_, require_eq_ok.mpr hlookup, ?_⟩
      exact bind_eq_ok.mpr ⟨_, ih.mpr ⟨fun f hf => hall f (List.mem_cons_of_mem _ hf), rfl⟩, rfl⟩

/-- The part has a name and a seed to be computed with, and some row of each table falls in it. -/
def Served (tables : List (Frame V D)) (part : String) : Prop :=
  params.seed.isSome = true ∧ part ≠ "" ∧ ∀ frame ∈ tables, part ∈ assignment p params frame

theorem derive_eq_ok {out : List (Frame V D)} : derive p params tables part = .ok out ↔
    Served p params tables part ∧
      out = tables.map fun frame => partFrame frame (assignment p params frame) part := by
  simp only [derive, bind_eq_ok, ensure_eq_ok, exists_const, materialiseSplit_eq_ok, Served,
    and_assoc]

def jobs (tables : List (Frame V D)) (order : List String) :
    List (String × Except Refusal (List (Frame V D))) :=
  (order.foldl (Store.run p params) { tables := tables, derived := [] }).derived

theorem foldl_run (order : List String) (store : Store V D) :
    (order.foldl (Store.run p params) store).derived =
      store.derived ++ order.map fun part => (part, derive p params store.tables part) := by
  induction order generalizing store with
  | nil => simp
  | cons part order ih =>
    rw [List.foldl_cons, ih]
    simp [Store.run]

theorem jobs_eq (order : List String) : jobs p params tables order =
    order.map fun part => (part, derive p params tables part) := foldl_run p params order _

def rowsAt (i : ℕ) : Except Refusal (List (Frame V D)) → List (String → V)
  | .ok out => out[i]?.elim [] Frame.rows
  | .error _ => []

/-! ## Whether the parts fit -/

/-- The jobs all succeed or are all refused; where they succeed, the parts of each table are its
rows, each once, with its columns, and rows with the same key are in the same part. -/
structure FitTogether (tables : List (Frame V D))
    (results : List (String × Except Refusal (List (Frame V D)))) : Prop where
  agree : (∀ r ∈ results, r.2.isOk = true) ∨ ∀ r ∈ results, r.2.isOk = false
  rows : (∀ r ∈ results, r.2.isOk = true) → ∀ i frame, tables[i]? = some frame →
    (results.flatMap fun r => rowsAt i r.2).Perm frame.rows
  columns : ∀ r ∈ results, ∀ out, r.2 = .ok out →
    out.map Frame.columns = tables.map Frame.columns
  keys : (∀ r ∈ results, r.2.isOk = true) → method params = "grouped_by_key" →
    ∀ key, params.key_column = some key → ∀ i j frame frame',
      tables[i]? = some frame → tables[j]? = some frame' →
      ∀ row ∈ frame.rows, ∀ row' ∈ frame'.rows, p.same (row key) (row' key) = true →
        ∀ r ∈ results, row ∈ rowsAt i r.2 ↔ row' ∈ rowsAt j r.2

/-- The parts fit together in whatever order the jobs of the declared parts are run. -/
def PartsFit (tables : List (Frame V D)) : Prop := ∀ order, order.Perm (declared p params) →
  FitTogether p params tables (jobs p params tables order)

/-- Key values that are equal fall in one part. -/
def KeysAgree (tables : List (Frame V D)) : Prop := method params = "grouped_by_key" →
  ∀ edges key, cumulative p (shares p params) = .ok edges → params.key_column = some key →
    ∀ frame ∈ tables, ∀ frame' ∈ tables, ∀ row ∈ frame.rows, ∀ row' ∈ frame'.rows,
      p.same (row key) (row' key) = true →
        keyPart p edges (params.seed.getD 0) (row key) =
          keyPart p edges (params.seed.getD 0) (row' key)

def NoTagColumn (tables : List (Frame V D)) : Prop :=
  ∀ frame ∈ tables, ∀ column ∈ frame.columns, column.1 ≠ "__part__"

theorem rowsAt_derive {i : ℕ} (hserved : Served p params tables part)
    (hi : tables[i]? = some frame) : rowsAt i (derive p params tables part) =
      (partFrame frame (assignment p params frame) part).rows := by
  rw [(derive_eq_ok p params).mpr ⟨hserved, rfl⟩, rowsAt, List.getElem?_map, hi]
  rfl

theorem isOk_derive : (derive p params tables part).isOk = true ↔ Served p params tables part := by
  constructor
  · intro h
    obtain ⟨out, hout⟩ := exists_ok h
    exact ((derive_eq_ok p params).mp hout).1
  · intro h
    rw [(derive_eq_ok p params).mpr ⟨h, rfl⟩]
    rfl

theorem isOk_jobs {order : List String} : (∀ r ∈ jobs p params tables order, r.2.isOk = true) ↔
    ∀ part ∈ order, Served p params tables part := by
  rw [jobs_eq, List.forall_mem_map]
  exact forall₂_congr fun part _ => isOk_derive p params

theorem not_isOk_jobs {order : List String} :
    (∀ r ∈ jobs p params tables order, r.2.isOk = false) ↔
      ∀ part ∈ order, ¬ Served p params tables part := by
  rw [jobs_eq, List.forall_mem_map]
  refine forall₂_congr fun part _ => ?_
  rw [← isOk_derive, Bool.not_eq_true]

theorem partFrame_columns {a : List String} : (partFrame frame a part).columns = frame.columns ↔
    ∀ column ∈ frame.columns, column.1 ≠ "__part__" := by
  rw [partFrame, List.filter_eq_self]
  simp only [decide_eq_true_eq]

theorem mem_rowsAt_grouped (hm : method params = "grouped_by_key") {edges : List (String × ℚ)}
    (hedges : cumulative p (shares p params) = .ok edges) {key : String}
    (hkey : params.key_column = some key) (hserved : Served p params tables part) {i : ℕ}
    (hi : tables[i]? = some frame) {row : String → V} :
    row ∈ rowsAt i (derive p params tables part) ↔
      row ∈ frame.rows ∧ keyPart p edges (params.seed.getD 0) (row key) = part := by
  obtain ⟨edges', key', hedges', hkey', ha⟩ := assignParts_grouped p params hm
    (assignParts_of_mem p params (hserved.2.2 frame (List.mem_of_getElem? hi)))
  obtain rfl : key = key' := Option.some.inj (hkey.symm.trans hkey')
  obtain rfl : edges = edges' := Except.ok.inj (hedges.symm.trans hedges')
  rw [rowsAt_derive p params hserved hi, ha, mem_partFrame_map]

theorem keysAgree_of_fit (hserved : ∀ part ∈ declared p params, Served p params tables part)
    (hfit : FitTogether p params tables (jobs p params tables (declared p params))) :
    KeysAgree p params tables := by
  intro hm edges key hedges hkey frame hframe frame' hframe' row hrow row' hrow' hsame
  obtain ⟨i, hi⟩ := List.mem_iff_getElem?.mp hframe
  obtain ⟨j, hj⟩ := List.mem_iff_getElem?.mp hframe'
  have ht : method params ≠ "temporal" := by
    rw [hm]
    decide
  have hdeclared : keyPart p edges (params.seed.getD 0) (row key) ∈ declared p params :=
    partAt_declared p params ht hedges _
  generalize hpart : keyPart p edges (params.seed.getD 0) (row key) = part at hdeclared
  have hjob : (part, derive p params tables part) ∈ jobs p params tables (declared p params) := by
    rw [jobs_eq]
    exact List.mem_map_of_mem hdeclared
  have hiff := hfit.keys ((isOk_jobs p params).mpr hserved) hm key hkey i j frame frame' hi hj
    row hrow row' hrow' hsame _ hjob
  rw [mem_rowsAt_grouped p params hm hedges hkey (hserved part hdeclared) hi,
    mem_rowsAt_grouped p params hm hedges hkey (hserved part hdeclared) hj] at hiff
  exact (hiff.mp ⟨hrow, hpart⟩).2.symm

theorem noTagColumn_of_fit (hserved : ∀ part ∈ declared p params, Served p params tables part)
    (hfit : FitTogether p params tables (jobs p params tables (declared p params))) :
    NoTagColumn tables := by
  obtain ⟨part, hpart⟩ := List.exists_mem_of_ne_nil _ (declared_ne_nil p params)
  have hjob : (part, derive p params tables part) ∈ jobs p params tables (declared p params) := by
    rw [jobs_eq]
    exact List.mem_map_of_mem hpart
  have hcolumns := hfit.columns _ hjob _ ((derive_eq_ok p params).mpr ⟨hserved part hpart, rfl⟩)
  rw [List.map_map, List.map_inj_left] at hcolumns
  intro frame hframe
  exact partFrame_columns.mp (hcolumns frame hframe)

/-- The parts fit together just where no part is served, or each one is, no table has a column of
the tag's name and equal keys fall in one part. -/
theorem partsFit_iff (tables : List (Frame V D)) : PartsFit p params tables ↔
    (∀ part ∈ declared p params, ¬ Served p params tables part) ∨
      (∀ part ∈ declared p params, Served p params tables part) ∧ NoTagColumn tables ∧
        KeysAgree p params tables := by
  constructor
  · intro h
    have hfit := h _ (.refl _)
    rcases hfit.agree with hall | hnone
    · have hserved := (isOk_jobs p params).mp hall
      exact Or.inr ⟨hserved, noTagColumn_of_fit p params hserved hfit,
        keysAgree_of_fit p params hserved hfit⟩
    · exact Or.inl ((not_isOk_jobs p params).mp hnone)
  · rintro (hnone | ⟨hall, htag, hkeys⟩) order horder
    · have hrefused : ∀ r ∈ jobs p params tables order, r.2.isOk = false :=
        (not_isOk_jobs p params).mpr fun part hpart => hnone part (horder.mem_iff.mp hpart)
      obtain ⟨part, hpart⟩ := List.exists_mem_of_ne_nil _ (declared_ne_nil p params)
      have hnot : ¬ ∀ r ∈ jobs p params tables order, r.2.isOk = true := by
        intro hok
        exact hnone part hpart ((isOk_jobs p params).mp hok part (horder.mem_iff.mpr hpart))
      refine ⟨Or.inr hrefused, fun hok => absurd hok hnot, ?_, fun hok => absurd hok hnot⟩
      intro r hr out hout
      have := hrefused r hr
      rw [hout] at this
      cases this
    · have hserved : ∀ part ∈ order, Served p params tables part := fun part hpart =>
        hall part (horder.mem_iff.mp hpart)
      refine ⟨Or.inl ((isOk_jobs p params).mpr hserved), fun _ => ?_, ?_, fun _ => ?_⟩
      · intro i frame hi
        rw [jobs_eq, List.flatMap_map]
        have hrows : ∀ part ∈ order, rowsAt i (derive p params tables part) =
            (partFrame frame (assignment p params frame) part).rows := fun part hpart =>
          rowsAt_derive p params (hserved part hpart) hi
        rw [List.flatMap_congr hrows]
        obtain ⟨part, hpart⟩ := List.exists_mem_of_ne_nil _ (declared_ne_nil p params)
        exact parts_perm p params (assignParts_of_mem p params
          ((hall part hpart).2.2 frame (List.mem_of_getElem? hi))) horder
      · intro r hr out hout
        rw [jobs_eq] at hr
        obtain ⟨part, -, rfl⟩ := List.mem_map.mp hr
        obtain ⟨-, rfl⟩ := (derive_eq_ok p params).mp hout
        rw [List.map_map, List.map_inj_left]
        exact fun frame hframe => partFrame_columns.mpr (htag frame hframe)
      · intro hm key hkey i j frame frame' hi hj row hrow row' hrow' hsame r hr
        rw [jobs_eq] at hr
        obtain ⟨part, hpart, rfl⟩ := List.mem_map.mp hr
        have hframe := List.mem_of_getElem? hi
        obtain ⟨edges, -, hedges, -, -⟩ := assignParts_grouped p params hm
          (assignParts_of_mem p params ((hserved part hpart).2.2 frame hframe))
        rw [mem_rowsAt_grouped p params hm hedges hkey (hserved part hpart) hi,
          mem_rowsAt_grouped p params hm hedges hkey (hserved part hpart) hj,
          hkeys hm edges key hedges hkey frame hframe frame' (List.mem_of_getElem? hj) row hrow
            row' hrow' hsame]
        exact and_congr_left fun _ => ⟨fun _ => hrow', fun _ => hrow⟩

/-! ## A rejected row -/

/-- Values that are whole numbers, hashed and drawn to the lower half of the interval. -/
def wholeNumbers : Primitives ℤ Unit where
  str := fun v => toString v
  same := fun a b => a = b
  cast := fun _ text => text.toInt?
  before := fun a b => a < b
  hash := fun _ _ => 1 / 4
  draw := fun _ _ i => if i = 0 then 1 / 4 else 3 / 4
  round := id

def policies : List (Frame ℤ Unit) :=
  [{ columns := [("policy_id", ())], rows := [fun _ => 1, fun _ => 2] },
    { columns := [("policy_id", ())], rows := [fun _ => 3] }]

def halves : SplitParams :=
  { method := some "random", seed := some 1
    fractions := some ⟨[("train", 1 / 2), ("test", 1 / 2)], defaultShares_nodup _ _⟩
    key_column := none, time_column := none, cutoff := none }

theorem not_partsFit_rejected :
    (jobs wholeNumbers halves policies ["train", "test"]).map (fun r => (r.1, r.2.isOk)) =
      [("train", false), ("test", true)] ∧ ¬ PartsFit wholeNumbers halves policies := by
  have hjobs : (jobs wholeNumbers halves policies ["train", "test"]).map
      (fun r => (r.1, r.2.isOk)) = [("train", false), ("test", true)] := by with_unfolding_all decide
  refine ⟨hjobs, fun h => ?_⟩
  rcases (h ["train", "test"] (by decide)).agree with hall | hnone
  · have hok : ∀ x ∈ (jobs wholeNumbers halves policies ["train", "test"]).map
        (fun r => (r.1, r.2.isOk)), x.2 = true := List.forall_mem_map.mpr hall
    rw [hjobs] at hok
    exact absurd (hok ("train", false) List.mem_cons_self) (by decide)
  · have hrefused : ∀ x ∈ (jobs wholeNumbers halves policies ["train", "test"]).map
        (fun r => (r.1, r.2.isOk)), x.2 = false := List.forall_mem_map.mpr hnone
    rw [hjobs] at hrefused
    exact absurd (hrefused ("test", true) (by decide)) (by decide)

end GiPricing.Data
