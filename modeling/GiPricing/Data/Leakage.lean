import GiPricing.Data.Folds
import GiPricing.Order.SortedBy
import Mathlib.Data.String.Basic

/-! # A split without leakage

The parts of a table hold its rows, each once, in whatever order the fractions are given, and rows of
one key together.
-/

namespace GiPricing.Data

open Failure Classify

variable {V D : Type} {p : Primitives V D} {q : Sorting V} {params : SplitParams} {folds : ℤ}
  {frame : Frame V D} {a : List String} {u lower : ℚ} {edges edges' : List (String × ℚ)}

/-! ## The part of a number -/

/-- The first part whose interval ends above the number, or the final one. -/
def home (u : ℚ) : List (String × ℚ) → String
  | [] => ""
  | [edge] => edge.1
  | edge :: next :: edges => if u < edge.2 then edge.1 else home u (next :: edges)

/-- The intervals are one after the other from `lower` on. -/
def Rising (lower : ℚ) (edges : List (String × ℚ)) : Prop :=
  List.IsChain (· ≤ ·) (lower :: edges.map Prod.snd)

theorem Rising.tail {edge : String × ℚ} (h : Rising lower (edge :: edges)) :
    lower ≤ edge.2 ∧ Rising edge.2 edges := by
  rwa [Rising, List.map_cons, List.isChain_cons_cons] at h

theorem pick_of_lt (hrising : Rising lower edges) (hu : u < lower) (found : Option String) :
    pick u lower edges found = found := by
  induction edges generalizing lower with
  | nil => rfl
  | cons edge edges ih =>
    obtain ⟨hle, hrest⟩ := hrising.tail
    rw [pick, if_neg (fun h => absurd h.1 (not_le.mpr hu))]
    exact ih hrest (lt_of_lt_of_le hu hle)

theorem pick_eq_home (hrising : Rising lower edges) (hu : lower ≤ u) :
    (pick u lower edges none).getD ((edges.getLast?.map Prod.fst).getD "") = home u edges := by
  induction edges generalizing lower with
  | nil => rfl
  | cons edge edges ih =>
    obtain ⟨hle, hrest⟩ := hrising.tail
    rw [pick]
    by_cases hlt : u < edge.2
    · rw [if_pos ⟨hu, hlt⟩, pick_of_lt hrest hlt]
      cases edges with
      | nil => rfl
      | cons next edges => rw [home, if_pos hlt, Option.getD_some]
    · rw [if_neg (fun h => hlt h.2)]
      cases edges with
      | nil => rfl
      | cons next edges =>
        rw [home, if_neg hlt, ← ih hrest (not_lt.mp hlt), List.getLast?_cons_cons]

theorem partAt_eq_home (hrising : Rising 0 edges) (hu : 0 ≤ u) : partAt edges u = home u edges :=
  pick_eq_home hrising hu

theorem home_mem (h : edges ≠ []) : home u edges ∈ edges.map Prod.fst := by
  fun_induction home u edges with
  | case1 => exact absurd rfl h
  | case2 edge => exact List.mem_cons_self
  | case3 edge next edges hlt => exact List.mem_cons_self
  | case4 edge next edges hlt ih => exact List.mem_cons_of_mem _ (ih (List.cons_ne_nil _ _))

/-- A number lies on one side of the ends of the two lists' intervals, the final ones apart. -/
def SameSide (u : ℚ) (edges edges' : List (String × ℚ)) : Prop :=
  ∀ ends ∈ edges.dropLast.zip edges'.dropLast, (u < ends.1.2 ↔ u < ends.2.2)

theorem Rising.lt_of_mem (h : Rising lower edges) (hu : u < lower) : ∀ e ∈ edges, u < e.2 := by
  induction edges generalizing lower with
  | nil => exact fun e he => absurd he List.not_mem_nil
  | cons edge edges ih =>
    obtain ⟨hle, hrest⟩ := h.tail
    exact List.forall_mem_cons.mpr ⟨lt_of_lt_of_le hu hle, ih hrest (lt_of_lt_of_le hu hle)⟩

theorem home_eq_iff : ∀ {edges edges' : List (String × ℚ)} {lower lower' : ℚ},
    edges.map Prod.fst = edges'.map Prod.fst → (edges.map Prod.fst).Nodup → Rising lower edges →
      Rising lower' edges' → (home u edges = home u edges' ↔ SameSide u edges edges')
  | [], [], _, _, _, _, _, _ => by simp [SameSide]
  | [edge], [edge'], _, _, hnames, _, _, _ => by
    have hname : edge.1 = edge'.1 := by simpa using hnames
    simp [SameSide, home, hname]
  | edge :: next :: edges, edge' :: next' :: edges', _, _, hnames, hnodup, hrising, hrising' => by
    obtain ⟨hname, htail⟩ := List.cons.inj hnames
    obtain ⟨hnot, hnodup⟩ := List.nodup_cons.mp hnodup
    obtain ⟨-, hrest⟩ := hrising.tail
    obtain ⟨-, hrest'⟩ := hrising'.tail
    have hside : SameSide u (edge :: next :: edges) (edge' :: next' :: edges') ↔
        (u < edge.2 ↔ u < edge'.2) ∧ SameSide u (next :: edges) (next' :: edges') := by
      simp [SameSide, List.dropLast_cons_cons]
    have hin : home u (next :: edges) ≠ edge.1 := fun h =>
      hnot (h ▸ home_mem (List.cons_ne_nil _ _))
    have hin' : home u (next' :: edges') ≠ edge.1 := fun h =>
      hnot (htail ▸ h ▸ home_mem (List.cons_ne_nil _ _))
    rw [home, home, hside]
    by_cases hu : u < edge.2 <;> by_cases hu' : u < edge'.2
    · -- Below the first end the number is below all of them.
      have hlt := hrest.lt_of_mem hu
      have hlt' := hrest'.lt_of_mem hu'
      rw [if_pos hu, if_pos hu']
      refine iff_of_true hname ⟨iff_of_true hu hu', fun ends hends => ?_⟩
      obtain ⟨hmem, hmem'⟩ := List.of_mem_zip hends
      exact iff_of_true (hlt _ (List.dropLast_subset _ hmem)) (hlt' _ (List.dropLast_subset _ hmem'))
    · rw [if_pos hu, if_neg hu']
      exact iff_of_false hin'.symm fun h => hu' (h.1.mp hu)
    · rw [if_neg hu, if_pos hu', ← hname]
      exact iff_of_false hin fun h => hu (h.1.mpr hu')
    · rw [if_neg hu, if_neg hu', and_iff_right (iff_of_false hu hu')]
      exact home_eq_iff htail hnodup hrest hrest'
  | [], _ :: _, _, _, hnames, _, _, _ => by simp at hnames
  | _ :: _, [], _, _, hnames, _, _, _ => by simp at hnames
  | [_], _ :: _ :: _, _, _, hnames, _, _, _ => by simp at hnames
  | _ :: _ :: _, [_], _, _, hnames, _, _, _ => by simp at hnames

theorem edgesFrom_rising (hd : Documented p q) {share : String → ℚ} {total running : ℚ}
    (hshare : ∀ name, 0 ≤ share name) (htotal : 0 < total) (hrunning : p.round running = running)
    (names : List String) : Rising running (edgesFrom p share total running names) := by
  induction names generalizing running with
  | nil => exact List.isChain_singleton _
  | cons name names ih =>
    rw [edgesFrom, Rising, List.map_cons, List.isChain_cons_cons]
    refine ⟨?_, ih (hd.round_round _)⟩
    have hpart := hd.round_nonneg (div_nonneg (hshare name) htotal.le)
    calc running = p.round running := hrunning.symm
      _ ≤ p.round (running + p.round (share name / total)) := hd.round_mono (by linarith)

/-! ## The parts of the rows -/

/-- The table has what the method takes its numbers from. -/
def Splittable (params : SplitParams) (frame : Frame V D) : Prop :=
  method params = "random" ∨ method params = "grouped_by_key" ∧
    ∃ key, params.key_column.filter (· ≠ "") = some key ∧ (frame.columns.lookup key).isSome = true

theorem assignParts_units (hm : method params ≠ "temporal") : assignParts p params frame = .ok a ↔
    Splittable params frame ∧ ∃ edges, cumulative p (shares p params) = .ok edges ∧
      a = (units p params frame).map (partAt edges) := by
  unfold assignParts
  rw [if_neg hm]
  by_cases hg : method params = "grouped_by_key"
  · have hmethods : method params ≠ "random" := by
      rw [hg]
      decide
    rw [if_pos hg]
    constructor
    · intro h
      obtain ⟨edges, hedges, h⟩ := bind_eq_ok.mp h
      obtain ⟨key, hkey, h⟩ := require_bind_eq_ok.mp h
      obtain ⟨dtype, hdtype, h⟩ := require_bind_eq_ok.mp h
      cases h
      refine ⟨Or.inr ⟨hg, key, hkey, by rw [hdtype]; rfl⟩, edges, hedges, ?_⟩
      rw [units_grouped hg (Option.filter_eq_some_iff.mp hkey).1, List.map_map]
      rfl
    · rintro ⟨hsplit, edges, hedges, rfl⟩
      obtain ⟨-, key, hkey, hcolumn⟩ := hsplit.resolve_left hmethods
      obtain ⟨dtype, hdtype⟩ := Option.isSome_iff_exists.mp hcolumn
      refine bind_eq_ok.mpr ⟨edges, hedges, require_bind_eq_ok.mpr ⟨key, hkey, ?_⟩⟩
      refine require_bind_eq_ok.mpr ⟨dtype, hdtype, ?_⟩
      rw [units_grouped hg (Option.filter_eq_some_iff.mp hkey).1, List.map_map]
      rfl
  · rw [if_neg hg]
    by_cases hr : method params = "random"
    · rw [if_pos hr, bind_eq_ok, units, if_neg hg]
      constructor
      · rintro ⟨edges, hedges, h⟩
        cases h
        exact ⟨Or.inl hr, edges, hedges, by rw [List.map_map]; rfl⟩
      · rintro ⟨-, edges, hedges, rfl⟩
        exact ⟨edges, hedges, by rw [List.map_map]; rfl⟩
    · rw [if_neg hr]
      exact iff_of_false (by simp) fun h => (h.1.elim hr) fun h => hg h.1

theorem partition_eq_ok {parts : List (String × Frame V D)} :
    partition p params frame = .ok parts ↔ ∃ a, assignParts p params frame = .ok a ∧
      parts = (sortedNames a.dedup).map fun name => (name, partFrame frame a name) := by
  rw [partition, bind_eq_ok]
  refine exists_congr fun a => and_congr_right fun _ => ?_
  exact ⟨fun h => (Except.ok.inj h).symm, fun h => by rw [h]; rfl⟩

theorem cumulative_rising (hd : Documented p q) {fractions : Dict ℚ}
    (h : cumulative p fractions = .ok edges) : Rising 0 edges := by
  obtain ⟨htotal, h⟩ := ensure_bind_eq_ok.mp h
  obtain ⟨hshare, h⟩ := ensure_bind_eq_ok.mp h
  obtain ⟨-, h⟩ := ensure_bind_eq_ok.mp h
  cases h
  refine edgesFrom_rising hd (fun name => ?_) htotal hd.round_zero _
  cases hget : fractions.get? name with
  | none => exact le_rfl
  | some share =>
    have hmem := (Dict.get?_eq_some fractions).mp hget
    exact hshare share (List.mem_map_of_mem (f := Prod.snd) hmem)

variable (p params) in
/-- The parts of a table hold its rows, each once, with the columns of the table, and each row is in
the same part in whatever order the fractions are given. Under a grouped split rows with equal keys
are in one part, whatever other rows stand with them. Under a temporal one a row before the cutoff
is apart from one that is not. -/
structure PartLaws (frame : Frame V D) (parts : List (String × Frame V D)) : Prop where
  names : (parts.map Prod.fst).Nodup
  rows : (parts.flatMap fun part => part.2.rows).Perm frame.rows
  columns : ∀ part ∈ parts, part.2.columns = frame.columns
  order : ∀ d d' : Dict ℚ, params.fractions = some d → d'.entries.Perm d.entries →
    partition p { params with fractions := some d' } frame = .ok parts ∧
      assignParts p { params with fractions := some d' } frame = assignParts p params frame
  grouped : method params = "grouped_by_key" → ∀ key, params.key_column = some key →
    ∀ (frame' : Frame V D) parts', frame'.columns = frame.columns →
      partition p params frame' = .ok parts' → ∀ row ∈ frame.rows, ∀ row' ∈ frame.rows,
        p.same (row key) (row' key) = true → row ∈ frame'.rows → row' ∈ frame'.rows →
          ∀ part ∈ parts', row ∈ part.2.rows ↔ row' ∈ part.2.rows
  temporal : method params = "temporal" → ∀ time cutoff dtype boundary,
    params.time_column = some time → params.cutoff = some cutoff →
      frame.columns.lookup time = some dtype → p.cast dtype cutoff = some boundary →
        ∀ part ∈ parts, ∀ row ∈ part.2.rows, ∀ row' ∈ part.2.rows,
          p.before (row time) boundary = p.before (row' time) boundary

variable (p params) in
/-- No column has the name of the tag, the rounding of the fractions' sums in another order moves no
part's end over the number of a row, and equal keys fall in one part. -/
structure PartsHold (frame : Frame V D) : Prop where
  columns : frame.rows = [] ∨ ∀ column ∈ frame.columns, column.1 ≠ "__part__"
  order : method params ≠ "temporal" → ∀ d d' : Dict ℚ, params.fractions = some d →
    d'.entries.Perm d.entries → ∀ edges, cumulative p (shares p params) = .ok edges →
      ∃ edges', cumulative p (shares p { params with fractions := some d' }) = .ok edges' ∧
        ∀ u ∈ units p params frame, SameSide u edges edges'
  keys : KeysAgree p params [frame]

theorem sortedNames_congr {names names' : List String} (h : names'.Perm names) :
    sortedNames names' = sortedNames names :=
  List.Perm.eq_of_pairwise (fun _ _ _ _ => le_antisymm) (List.pairwise_insertionSort (· ≤ ·) _)
    (List.pairwise_insertionSort (· ≤ ·) _)
    (((List.perm_insertionSort _ _).trans h).trans (List.perm_insertionSort _ _).symm)

theorem cumulative_names_congr {d d' : Dict ℚ} (hd : params.fractions = some d)
    (h : d'.entries.Perm d.entries) (hedges : cumulative p (shares p params) = .ok edges)
    (hedges' : cumulative p (shares p { params with fractions := some d' }) = .ok edges') :
    edges.map Prod.fst = edges'.map Prod.fst := by
  rw [cumulative_names p hedges, cumulative_names p hedges']
  refine sortedNames_congr ?_
  rw [shares, shares, hd]
  by_cases hnil : d.entries = []
  · have hnil' : d'.entries = [] := (hnil ▸ h).eq_nil
    simp [hnil, hnil']
  · have hcons' : ¬ d'.entries = [] := fun hnil' => hnil (hnil' ▸ h).symm.eq_nil
    simpa [hnil, hcons', Dict.keys] using (h.map Prod.fst).symm

/-! ## Where the laws hold -/

theorem parts_columns_iff (ha : assignParts p params frame = .ok a) :
    (∀ part ∈ (sortedNames a.dedup).map fun name => (name, partFrame frame a name),
      part.2.columns = frame.columns) ↔
        frame.rows = [] ∨ ∀ column ∈ frame.columns, column.1 ≠ "__part__" := by
  obtain ⟨hlength, -⟩ := assignParts_spec p params ha
  rw [List.forall_mem_map]
  constructor
  · intro h
    by_cases hnil : frame.rows = []
    · exact Or.inl hnil
    · have hcons : a ≠ [] := fun ha => hnil (List.length_eq_zero_iff.mp (by rw [← hlength, ha]; rfl))
      obtain ⟨name, hname⟩ := List.exists_mem_of_ne_nil a hcons
      exact Or.inr (partFrame_columns.mp
        (h name (mem_sortedNames.mpr (List.mem_dedup.mpr hname))))
  · rintro (hnil | hcolumns) name hname
    · rw [hnil, List.length_nil, List.length_eq_zero_iff] at hlength
      rw [hlength] at hname
      exact absurd hname List.not_mem_nil
    · exact partFrame_columns.mpr hcolumns

theorem assignParts_reordered (hd : Documented p q) (hm : method params ≠ "temporal")
    (ha : assignParts p params frame = .ok a) {d d' : Dict ℚ} (hfractions : params.fractions = some d)
    (hperm : d'.entries.Perm d.entries) (hedges : cumulative p (shares p params) = .ok edges) :
    assignParts p { params with fractions := some d' } frame = .ok a ↔
      ∃ edges', cumulative p (shares p { params with fractions := some d' }) = .ok edges' ∧
        ∀ u ∈ units p params frame, SameSide u edges edges' := by
  obtain ⟨hsplit, edges₀, hedges₀, rfl⟩ := (assignParts_units hm).mp ha
  obtain rfl : edges = edges₀ := Except.ok.inj (hedges.symm.trans hedges₀)
  have hm' : method { params with fractions := some d' } ≠ "temporal" := hm
  have hsplit' : Splittable { params with fractions := some d' } frame := hsplit
  rw [assignParts_units hm']
  rw [and_iff_right hsplit']
  refine exists_congr fun edges' => and_congr_right fun hedges' => ?_
  have hnames := cumulative_names_congr hfractions hperm hedges hedges'
  have hnodup : (edges.map Prod.fst).Nodup := by
    rw [cumulative_names p hedges]
    exact (List.perm_insertionSort _ _).nodup_iff.mpr (shares p params).nodup
  have hrising := cumulative_rising hd hedges
  have hrising' := cumulative_rising hd hedges'
  have hunits : units p { params with fractions := some d' } frame = units p params frame := rfl
  rw [hunits, List.map_inj_left]
  refine forall₂_congr fun u hu => ?_
  have hnonneg := units_nonneg hd u hu
  rw [partAt_eq_home hrising hnonneg, partAt_eq_home hrising' hnonneg]
  exact home_eq_iff hnames hnodup hrising hrising'

theorem assignParts_temporal (hm : method params = "temporal") (d : Dict ℚ) :
    assignParts p { params with fractions := some d } frame = assignParts p params frame := by
  have hm' : method { params with fractions := some d } = "temporal" := hm
  rw [assignParts, assignParts, if_pos hm, if_pos hm']

theorem mem_part_iff (hm : method params = "grouped_by_key") {key : String}
    (hkey : params.key_column = some key) {parts : List (String × Frame V D)}
    (h : partition p params frame = .ok parts) (hedges : cumulative p (shares p params) = .ok edges)
    {part : String × Frame V D} (hpart : part ∈ parts) {row : String → V} :
    row ∈ part.2.rows ↔
      row ∈ frame.rows ∧ keyPart p edges (params.seed.getD 0) (row key) = part.1 := by
  obtain ⟨a, ha, rfl⟩ := partition_eq_ok.mp h
  obtain ⟨edges', key', hedges', hkey', rfl⟩ := assignParts_grouped p params hm ha
  obtain rfl : key = key' := Option.some.inj (hkey.symm.trans hkey')
  obtain rfl : edges = edges' := Except.ok.inj (hedges.symm.trans hedges')
  obtain ⟨name, -, rfl⟩ := List.mem_map.mp hpart
  exact mem_partFrame_map

theorem temporal_apart (hm : method params = "temporal") {parts : List (String × Frame V D)}
    (h : partition p params frame = .ok parts) {time cutoff : String} {dtype : D} {boundary : V}
    (htime : params.time_column = some time) (hcutoff : params.cutoff = some cutoff)
    (hdtype : frame.columns.lookup time = some dtype) (hboundary : p.cast dtype cutoff = some boundary)
    {part : String × Frame V D} (hpart : part ∈ parts) {row : String → V}
    (hrow : row ∈ part.2.rows) :
    part.1 = if p.before (row time) boundary then "train" else "test" := by
  obtain ⟨a, ha, rfl⟩ := partition_eq_ok.mp h
  rw [assignParts, if_pos hm] at ha
  obtain ⟨time', htime', ha⟩ := require_bind_eq_ok.mp ha
  obtain ⟨cutoff', hcutoff', ha⟩ := require_bind_eq_ok.mp ha
  obtain ⟨dtype', hdtype', ha⟩ := require_bind_eq_ok.mp ha
  obtain ⟨boundary', hboundary', ha⟩ := require_bind_eq_ok.mp ha
  obtain rfl : time = time' :=
    Option.some.inj (htime.symm.trans (Option.filter_eq_some_iff.mp htime').1)
  obtain rfl : cutoff = cutoff' := Option.some.inj (hcutoff.symm.trans hcutoff')
  obtain rfl : dtype = dtype' := Option.some.inj (hdtype.symm.trans hdtype')
  obtain rfl : boundary = boundary' := Option.some.inj (hboundary.symm.trans hboundary')
  cases ha
  obtain ⟨name, -, rfl⟩ := List.mem_map.mp hpart
  exact (mem_partFrame_map.mp hrow).2.symm

theorem exists_part (hm : method params = "grouped_by_key") {key : String}
    (hkey : params.key_column = some key) {parts : List (String × Frame V D)}
    (h : partition p params frame = .ok parts) (hedges : cumulative p (shares p params) = .ok edges)
    {row : String → V} (hrow : row ∈ frame.rows) :
    ∃ part ∈ parts, part.1 = keyPart p edges (params.seed.getD 0) (row key) := by
  obtain ⟨a, ha, rfl⟩ := partition_eq_ok.mp h
  obtain ⟨edges', key', hedges', hkey', rfl⟩ := assignParts_grouped p params hm ha
  obtain rfl : key = key' := Option.some.inj (hkey.symm.trans hkey')
  obtain rfl : edges = edges' := Except.ok.inj (hedges.symm.trans hedges')
  refine ⟨_, List.mem_map_of_mem (mem_sortedNames.mpr (List.mem_dedup.mpr ?_)), rfl⟩
  exact List.mem_map_of_mem hrow

theorem partLaws_iff (hd : Documented p q) {parts : List (String × Frame V D)}
    (h : partition p params frame = .ok parts) :
    PartLaws p params frame parts ↔ PartsHold p params frame := by
  obtain ⟨a, ha, hparts⟩ := partition_eq_ok.mp h
  obtain ⟨hlength, -⟩ := assignParts_spec p params ha
  constructor
  · intro hlaws
    refine ⟨(parts_columns_iff ha).mp (hparts ▸ hlaws.columns), ?_, ?_⟩
    · intro hm d d' hfractions hperm edges hedges
      have hsame := (hlaws.order d d' hfractions hperm).2
      exact (assignParts_reordered hd hm ha hfractions hperm hedges).mp (hsame.trans ha)
    · intro hm edges key hedges hkey frame₁ hframe₁ frame₂ hframe₂ row hrow row' hrow' hsame
      obtain rfl := List.mem_singleton.mp hframe₁
      obtain rfl := List.mem_singleton.mp hframe₂
      obtain ⟨part, hpart, hname⟩ := exists_part hm hkey h hedges hrow
      have hin := (mem_part_iff hm hkey h hedges hpart).mpr ⟨hrow, hname.symm⟩
      have hin' := (hlaws.grouped hm key hkey _ parts rfl h row hrow row' hrow' hsame hrow hrow'
        part hpart).mp hin
      rw [((mem_part_iff hm hkey h hedges hpart).mp hin').2, hname]
  · intro hhold
    have hreordered : ∀ d d' : Dict ℚ, params.fractions = some d → d'.entries.Perm d.entries →
        assignParts p { params with fractions := some d' } frame = .ok a := by
      intro d d' hfractions hperm
      by_cases hm : method params = "temporal"
      · rw [assignParts_temporal hm, ha]
      · obtain ⟨-, edges, hedges, -⟩ := (assignParts_units hm).mp ha
        exact (assignParts_reordered hd hm ha hfractions hperm hedges).mpr
          (hhold.order hm d d' hfractions hperm edges hedges)
    have hnodup : (sortedNames a.dedup).Nodup :=
      (List.perm_insertionSort _ _).nodup_iff.mpr (List.nodup_dedup a)
    refine ⟨?_, ?_, hparts ▸ (parts_columns_iff ha).mpr hhold.columns, ?_, ?_, ?_⟩
    · simpa [hparts, Function.comp_def] using hnodup
    · rw [hparts, List.flatMap_map]
      exact partFrames_perm hlength hnodup fun name hname =>
        mem_sortedNames.mpr (List.mem_dedup.mpr hname)
    · intro d d' hfractions hperm
      have ha' := hreordered d d' hfractions hperm
      exact ⟨partition_eq_ok.mpr ⟨a, ha', hparts⟩, ha'.trans ha.symm⟩
    · intro hm key hkey frame' parts' hcolumns h' row hrow row' hrow' hsame hin hin' part hpart
      obtain ⟨a', ha', -⟩ := partition_eq_ok.mp h'
      obtain ⟨edges, key', hedges, hkey', -⟩ := assignParts_grouped p params hm ha'
      rw [mem_part_iff hm hkey h' hedges hpart, mem_part_iff hm hkey h' hedges hpart,
        hhold.keys hm edges key hedges hkey frame (List.mem_singleton.mpr rfl) frame
          (List.mem_singleton.mpr rfl) row hrow row' hrow' hsame]
      exact and_congr_left fun _ => iff_of_true hin hin'
    · intro hm time cutoff dtype boundary htime hcutoff hdtype hboundary part hpart row hrow row' hrow'
      have h1 := temporal_apart hm h htime hcutoff hdtype hboundary hpart hrow
      have h2 := temporal_apart hm h htime hcutoff hdtype hboundary hpart hrow'
      rw [h1] at h2
      split_ifs at h2 with hbefore hbefore' hbefore'
      · rw [hbefore, hbefore']
      · exact absurd h2 (by decide)
      · exact absurd h2 (by decide)
      · rw [Bool.eq_false_of_not_eq_true hbefore, Bool.eq_false_of_not_eq_true hbefore']

variable (p q params folds frame) in
/-- The parts and the folds of a table, where they are given, obey their laws. -/
def LeakFree : Prop :=
  (∀ parts, partition p params frame = .ok parts → PartLaws p params frame parts) ∧
    ∀ a, assignFolds p q params folds frame = .ok a → FoldLaws p q params folds frame a

/-- A table is split without leakage just where its columns, its fractions and its keys let it. -/
theorem leakFree_iff (hd : Documented p q) : LeakFree p q params folds frame ↔
    ((∃ parts, partition p params frame = .ok parts) → PartsHold p params frame) ∧
      ((∃ a, assignFolds p q params folds frame = .ok a) → FoldsFit p q params folds frame) := by
  rw [LeakFree, forall_exists_index, forall_exists_index]
  exact and_congr (forall₂_congr fun _ h => partLaws_iff hd h)
    (forall₂_congr fun _ h => foldLaws_iff hd h)

/-! ## A table with a column of the tag's name -/

/-- The whole numbers in their order. -/
def ascending : Sorting ℤ where
  le := fun a b => a ≤ b
  argSort := fun values => sortedBy (fun i => values[i]?.getD 0) (List.range values.length)
  toInt64 := fun x => ⌊x⌋

theorem documented_ascending : Documented wholeNumbers ascending where
  argSort_perm _ := sortedBy_perm _ _
  argSort_sorted := by
    intro values i j a b x y hlt ha hb hx hy
    obtain ⟨hi, rfl⟩ := List.getElem?_eq_some_iff.mp ha
    obtain ⟨hj, rfl⟩ := List.getElem?_eq_some_iff.mp hb
    have hle : values[(ascending.argSort values)[i]]?.getD 0 ≤
        values[(ascending.argSort values)[j]]?.getD 0 :=
      List.pairwise_iff_getElem.mp (pairwise_sortedBy _ (List.range values.length)) i j hi hj hlt
    rw [hx, hy] at hle
    exact decide_eq_true hle
  toInt64_eq _ _ _ := rfl
  round_mono := monotone_id
  round_round _ := rfl
  round_zero := rfl
  hash_nonneg _ _ := by norm_num [wholeNumbers]
  draw_nonneg _ _ i := by
    rw [wholeNumbers]
    dsimp only
    split_ifs <;> norm_num

def periods (columns : List (String × Unit)) : Frame ℤ Unit :=
  { columns := columns, rows := [fun _ => 1, fun _ => 3] }

def byTime : SplitParams :=
  { method := some "temporal", seed := some 1, fractions := none, key_column := none
    time_column := some "start", cutoff := some "2" }

theorem periods_leakFree : LeakFree wholeNumbers ascending byTime 2 (periods [("start", ())]) := by
  refine (leakFree_iff documented_ascending).mpr ⟨fun _ => ?_, fun _ => ?_⟩
  · refine ⟨Or.inr (by decide), fun hm => absurd rfl hm, fun hm => ?_⟩
    exact absurd hm (by decide)
  · exact ⟨fun _ => by decide, fun hm => absurd rfl hm, fun hm => absurd hm (by decide)⟩

theorem not_leakFree_tagged : ¬ LeakFree wholeNumbers ascending halves 2
    (periods [("policy_id", ()), ("__part__", ())]) := by
  intro h
  have hok : (partition wholeNumbers halves
      (periods [("policy_id", ()), ("__part__", ())])).isOk = true := by with_unfolding_all decide
  obtain ⟨parts, hparts⟩ := exists_ok hok
  rcases ((partLaws_iff documented_ascending hparts).mp (h.1 parts hparts)).columns with hrows | htag
  · cases hrows
  · exact htag ("__part__", ()) (by decide) rfl

end GiPricing.Data
