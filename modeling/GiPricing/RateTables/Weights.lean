import GiPricing.Merge.Join
import GiPricing.RateTables.RoundTrip

/-! # The exposure of each cell

A portfolio joined to the cells of a table on the values of the keys, in the types that the keys
declare. Cells with different texts can have one typed key, and a row of the portfolio is then
joined to each of them.
-/

namespace GiPricing.RateTables.Portfolio

open Failure Decimal

/-! ## Typed keys -/

inductive TypedKey
  | int (n : ℤ)
  | bool (b : Bool)
  | date (d : Date)
  | text (s : String)
  deriving DecidableEq

inductive WeightError
  | keyError (column : String)
  | invalidCell (key : String) (type : KeyType)
  | overflow
  | noMatch (keys : List String)
  deriving DecidableEq

def int64 (n : ℤ) : Except WeightError TypedKey := do
  ensure (-2 ^ 63 ≤ n ∧ n < 2 ^ 63) .overflow
  return .int n

/-- `int(raw)`. -/
def intOf (raw : String) : Option ℤ :=
  if parsesInt raw then
    let (negative, digits) := takeSign (strip raw)
    let n : ℤ := digitsValue (digits.filter isDigit)
    some (if negative then -n else n)
  else none

/-- `casefold` where it can give one of the letters of a truth value. -/
def casefold (raw : String) : String :=
  String.ofList (raw.toList.map fun c => if c = 'ſ' then 's' else c.toLower)

/-- What is called of others: the date parser, and the casts of a column of another type. -/
structure Casts (τ : Type) where
  fromisoformat : String → Option Date
  toFloat : τ → Option ℚ
  toBoolean : τ → Option Bool
  toText : τ → Option String
  toLowercase : String → String
  toDate : String → Option Date

/-- A value of a portfolio column that is no null: of the type of a key, or of another type. -/
inductive Resolved (τ : Type)
  | key (k : TypedKey)
  | datetime (d : Date)
  | other (x : τ)

section Typing

variable {τ : Type} (casts : Casts (Resolved τ))

def wholeKey (x : Option ℚ) : Except WeightError (Option TypedKey) := match x with
  | some q => if q = ⌊q⌋ then some <$> int64 ⌊q⌋ else .ok none
  | none => .ok none

def truthOf (text : String) : Option Bool :=
  if text = "true" then some true else if text = "false" then some false else none

/-- `_typed_portfolio`, of one value: a value of another type is null. -/
def typedPortfolio : KeyType → Resolved τ → Except WeightError (Option TypedKey)
  | .int, .key (.int n) => some <$> int64 n
  | .int, v => wholeKey (casts.toFloat v)
  | .bool, .key (.bool b) => .ok (some (.bool b))
  | .bool, .key (.text s) => .ok ((truthOf (casts.toLowercase s)).map .bool)
  | .bool, v => .ok ((casts.toBoolean v).map .bool)
  | .date, .key (.date d) => .ok (some (.date d))
  | .date, .datetime d => .ok (some (.date d))
  | .date, .key (.text s) => .ok ((casts.toDate s).map .date)
  | .date, v => .ok (((casts.toText v).bind casts.toDate).map .date)
  | .string, .key (.text s) => .ok (some (.text s))
  | .string, v => .ok ((casts.toText v).map .text)

/-- `_typed_cells`, of one cell. -/
def typedCell (key : RateTableKey) (raw : String) : Except WeightError TypedKey :=
  match key.type with
  | .int => do
    let n ← require (intOf raw) (.invalidCell key.name key.type)
    int64 n
  | .bool => (require (truthOf (casefold raw)) (.invalidCell key.name key.type)).map .bool
  | .date => (require (casts.fromisoformat raw) (.invalidCell key.name key.type)).map .date
  | .string => .ok (.text raw)

def typedAt (key : RateTableKey) (row : CellRow) : Except WeightError (String × TypedKey) := do
  let raw ← require (row.get? key.name) (.keyError key.name)
  let typed ← typedCell casts key raw
  return (raw, typed)

/-- The texts of a cell's keys and the values they write. -/
def typedRow (keys : List RateTableKey) (row : CellRow) :
    Except WeightError (KeyTuple × List TypedKey) := do
  let typed ← keys.mapM fun key => typedAt casts key row
  return (typed.map Prod.fst, typed.map Prod.snd)

/-! ## The join -/

/-- A row of a portfolio: for each key the value that its factor, its banding or its column gives,
and the exposure. -/
structure Row (τ : Type) where
  resolved : List (Option (Resolved τ))
  exposure : ℚ

def typedOrNull (type : KeyType) : Option (Resolved τ) → Except WeightError (Option TypedKey)
  | none => .ok none
  | some v => typedPortfolio casts type v

/-- The typed key of a row, none where a part of it is null. -/
def portfolioKey (keys : List RateTableKey) (row : Row τ) :
    Except WeightError (Option (List TypedKey)) := do
  let typed ← (keys.zip row.resolved).mapM fun entry => typedOrNull casts entry.1.type entry.2
  return typed.mapM id

def typedPortfolioRow (keys : List RateTableKey) (row : Row τ) :
    Except WeightError (Option (List TypedKey) × ℚ) := do
  let key ← portfolioKey casts keys row
  return (key, row.exposure)

structure PortfolioWeights where
  weights : List (KeyTuple × ℚ)
  portfolioExposure : ℚ
  matchedExposure : ℚ
  deriving DecidableEq

/-- The exposures of the rows joined to each cell, by its index. A cell whose sum is zero has
none. -/
def weightsOf (left : List (Option (List TypedKey) × ℚ))
    (right : List (KeyTuple × List TypedKey)) : PortfolioWeights :=
  let joined := Join.inner Prod.fst (fun c => c.1.2) left right.zipIdx
  let total := fun c => ((joined.filter fun p => p.2 = c).map fun p => p.1.2).sum
  { weights := right.zipIdx.filterMap fun c =>
      if total c = 0 then none else some (c.1.1, total c)
    portfolioExposure := (left.map Prod.snd).sum
    matchedExposure := (joined.map fun p => p.1.2).sum }

/-- `exposure_weights`, of the resolved columns of a portfolio. The cells are read column by
column. -/
def exposureWeights (keys : List RateTableKey) (portfolio : List (Row τ)) (cells : List CellRow) :
    Except WeightError PortfolioWeights := do
  let left ← portfolio.mapM (typedPortfolioRow casts keys)
  let _ ← keys.mapM fun key => cells.mapM (typedAt casts key)
  let right ← cells.mapM (typedRow casts keys)
  ensure (Join.inner Prod.fst (fun c => c.1.2) left right.zipIdx ≠ [])
    (.noMatch (keys.map RateTableKey.name))
  return weightsOf left right

end Typing

/-! ## What each policy counts for -/

/-- Each cell has the exposure of the rows with its typed key, no row is joined twice, and the
matched exposure and the rest are the whole. -/
structure CountsOnce (left : List (Option (List TypedKey) × ℚ))
    (right : List (KeyTuple × List TypedKey)) (w : PortfolioWeights) : Prop where
  each : ∀ c ∈ right, (w.weights.lookup c.1).getD 0 =
    ((left.filter fun a => a.1 = some c.2).map Prod.snd).sum
  once : ∀ a ∈ left, (right.countP fun c => a.1 = some c.2) ≤ 1
  whole : w.matchedExposure +
    ((left.filter fun a => right.all fun c => a.1 ≠ some c.2).map Prod.snd).sum =
      w.portfolioExposure

section Spec

variable {left : List (Option (List TypedKey) × ℚ)} {right : List (KeyTuple × List TypedKey)}
  {a : Option (List TypedKey) × ℚ}

theorem nodup_zipIdx {α : Type} (l : List α) : l.zipIdx.Nodup := by
  apply List.Nodup.of_map Prod.snd
  rw [List.zipIdx_map_snd]
  exact List.nodup_range'

theorem countP_zipIdx : (right.zipIdx.countP fun c => a.1 = some c.1.2) =
    right.countP fun c => a.1 = some c.2 := by
  have := List.countP_map (p := fun c : KeyTuple × List TypedKey => decide (a.1 = some c.2))
    (f := Prod.fst) (l := right.zipIdx)
  rw [List.zipIdx_map_fst] at this
  exact this.symm

theorem lookup_of_mem {l : List (KeyTuple × ℚ)} {k : KeyTuple} {q : ℚ}
    (hn : (l.map Prod.fst).Nodup) (h : (k, q) ∈ l) : l.lookup k = some q := by
  induction l with
  | nil => cases h
  | cons entry l ih =>
    rw [List.map_cons, List.nodup_cons] at hn
    rcases List.mem_cons.mp h with rfl | h
    · exact List.lookup_cons_self
    · have hne : (k == entry.1) = false := by
        rw [beq_eq_false_iff_ne]
        rintro rfl
        exact hn.1 (List.mem_map.mpr ⟨_, h, rfl⟩)
      rw [List.lookup_cons, hne]
      exact ih hn.2 h

/-- A cell's weight is found under its texts, where no other cell has them. -/
theorem lookup_weightsOf (htexts : (right.map Prod.fst).Nodup) {c : KeyTuple × List TypedKey}
    (hc : c ∈ right) : ((weightsOf left right).weights.lookup c.1).getD 0 =
      ((left.filter fun a => a.1 = some c.2).map Prod.snd).sum := by
  have hnodup : (right.zipIdx.map fun c => c.1.1).Nodup := by
    have : ((right.zipIdx.map Prod.fst).map Prod.fst).Nodup := by
      rw [List.zipIdx_map_fst]
      exact htexts
    rw [List.map_map] at this
    exact this
  have hkeys : ((weightsOf left right).weights.map Prod.fst).Nodup := by
    rw [List.Nodup, List.pairwise_map, weightsOf, List.pairwise_filterMap]
    apply (List.pairwise_map.mp hnodup).imp
    intro c d hne e he e' he'
    simp only [Option.ite_none_left_eq_some, Option.some.injEq] at he he'
    rw [← he.2, ← he'.2]
    exact hne
  obtain ⟨i, hi, rfl⟩ := List.mem_iff_getElem.mp hc
  have hmem : (right[i], i) ∈ right.zipIdx := by
    rw [List.mk_mem_zipIdx_iff_getElem?, List.getElem?_eq_getElem hi]
  have htotal : (((Join.inner Prod.fst (fun c => c.1.2) left right.zipIdx).filter
      fun p => p.2 = (right[i], i)).map fun p => p.1.2).sum =
      ((left.filter fun a => a.1 = some right[i].2).map Prod.snd).sum :=
    Join.sum_joined_to (nodup_zipIdx right) hmem
  by_cases hzero : ((left.filter fun a => a.1 = some right[i].2).map Prod.snd).sum = 0
  · have hnone : (weightsOf left right).weights.lookup right[i].1 = none := by
      rw [List.lookup_eq_none_iff]
      intro entry hentry
      obtain ⟨d, hd, hvalue⟩ := List.mem_filterMap.mp hentry
      simp only [Option.ite_none_left_eq_some, Option.some.injEq] at hvalue
      rw [bne_iff_ne, ← hvalue.2]
      intro hsame
      obtain rfl := List.inj_on_of_nodup_map hnodup hmem hd hsame
      exact hvalue.1 (htotal.trans hzero)
    rw [hnone, hzero, Option.getD_none]
  · have hin : (right[i].1, ((left.filter fun a => a.1 = some right[i].2).map Prod.snd).sum) ∈
        (weightsOf left right).weights := by
      apply List.mem_filterMap.mpr
      refine ⟨(right[i], i), hmem, ?_⟩
      simp only [htotal, hzero, if_false]
    rw [lookup_of_mem hkeys hin, Option.getD_some]

theorem countsOnce_weightsOf (htexts : (right.map Prod.fst).Nodup)
    (htyped : (right.map Prod.snd).Nodup) : CountsOnce left right (weightsOf left right) := by
  have honce : ∀ a : Option (List TypedKey) × ℚ, (right.countP fun c => a.1 = some c.2) ≤ 1 := by
    intro a
    cases ha : a.1 with
    | none => simp
    | some key =>
      have hcount := List.nodup_iff_count_le_one.mp htyped key
      rw [List.count, List.countP_map] at hcount
      refine le_trans (le_of_eq ?_) hcount
      apply List.countP_congr
      intro c _
      simp only [Function.comp_apply, decide_eq_true_eq, beq_iff_eq, Option.some.injEq]
      exact eq_comm
  refine ⟨fun c hc => lookup_weightsOf htexts hc, fun a _ => honce a, ?_⟩
  have hsum : ((Join.inner Prod.fst (fun c => c.1.2) left right.zipIdx).map fun p => p.1.2).sum +
      ((left.filter fun a => right.zipIdx.all fun c => a.1 ≠ some c.1.2).map Prod.snd).sum =
      (left.map Prod.snd).sum :=
    Join.sum_inner_add fun a _ => by
      rw [countP_zipIdx]
      exact honce a
  have hall : ∀ a : Option (List TypedKey) × ℚ, (right.zipIdx.all fun c => a.1 ≠ some c.1.2) =
      right.all fun c => a.1 ≠ some c.2 := by
    intro a
    have := List.all_map (f := Prod.fst) (l := right.zipIdx)
      (p := fun c : KeyTuple × List TypedKey => decide (a.1 ≠ some c.2))
    rw [List.zipIdx_map_fst] at this
    exact this.symm
  simp only [hall] at hsum
  exact hsum

end Spec

/-! ## Results -/

section Results

variable {τ : Type} {casts : Casts (Resolved τ)} {keys : List RateTableKey} {row : CellRow}
  {c : KeyTuple × List TypedKey} {key : RateTableKey} {raw : String} {k : TypedKey}

theorem typedAt_eq_ok : typedAt casts key row = .ok (raw, k) ↔
    row.get? key.name = some raw ∧ typedCell casts key raw = .ok k := by
  simp only [typedAt, bind_eq_ok, require_eq_ok, pure_eq_ok, Prod.mk.injEq]
  constructor
  · rintro ⟨raw', hraw, k', hk, rfl, rfl⟩
    exact ⟨hraw, hk⟩
  · rintro ⟨hraw, hk⟩
    exact ⟨raw, hraw, k, hk, rfl, rfl⟩

theorem typedRow_eq_ok : typedRow casts keys row = .ok c ↔
    ∃ typed, List.Forall₂ (fun key entry => typedAt casts key row = .ok entry) keys typed ∧
      (typed.map Prod.fst, typed.map Prod.snd) = c := by
  simp only [typedRow, bind_eq_ok, pure_eq_ok, mapM_eq_ok]

theorem keyOf_of_typedRow (h : typedRow casts keys row = .ok c) :
    keyOf (keys.map RateTableKey.name) row = some c.1 := by
  obtain ⟨typed, hall, rfl⟩ := typedRow_eq_ok.mp h
  clear h
  induction hall with
  | nil => rfl
  | @cons key entry keys typed hentry _ ih =>
    rw [List.map_cons]
    exact keyOf_cons_eq_some.mpr ⟨entry.1, _, (typedAt_eq_ok.mp hentry).1, ih, rfl⟩

theorem int64_eq_ok {n : ℤ} (h : int64 n = .ok k) : k = .int n := by
  rw [int64, ensure_bind_eq_ok, pure_eq_ok] at h
  exact h.2.symm

theorem typedPortfolio_of_typedCell (h : typedCell casts key raw = .ok k) :
    typedPortfolio casts key.type (.key k) = .ok (some k) := by
  rw [typedCell] at h
  cases htype : key.type with
  | int =>
    simp only [htype, bind_eq_ok] at h
    obtain ⟨n, -, hn⟩ := h
    obtain rfl := int64_eq_ok hn
    rw [typedPortfolio, hn]
    rfl
  | string =>
    simp only [htype, Except.ok.injEq] at h
    subst h
    rfl
  | date =>
    simp only [htype, map_eq_ok] at h
    obtain ⟨d, -, rfl⟩ := h
    rfl
  | bool =>
    simp only [htype, map_eq_ok] at h
    obtain ⟨b, -, rfl⟩ := h
    rfl

def rowOf (typed : List TypedKey) : Row τ := ⟨typed.map fun k => some (.key k), 1⟩

theorem typedPortfolioRow_rowOf (h : typedRow casts keys row = .ok c) :
    typedPortfolioRow casts keys (rowOf c.2) = .ok (some c.2, 1) := by
  obtain ⟨typed, hall, rfl⟩ := typedRow_eq_ok.mp h
  clear h
  have hmap : (keys.zip ((typed.map Prod.snd).map fun k => some (.key k))).mapM
      (fun entry => typedOrNull casts entry.1.type entry.2) =
      .ok ((typed.map Prod.snd).map some) := by
    rw [mapM_eq_ok]
    induction hall with
    | nil => exact .nil
    | @cons key entry keys typed hentry _ ih =>
      exact .cons (typedPortfolio_of_typedCell (typedAt_eq_ok.mp hentry).2) ih
  have hid : ∀ l : List TypedKey, (l.map some).mapM id = some l := by
    intro l
    induction l with
    | nil => rfl
    | cons k l ih =>
      rw [List.map_cons, List.mapM_cons, ih]
      rfl
  rw [typedPortfolioRow, bind_eq_ok]
  refine ⟨some (typed.map Prod.snd), ?_, rfl⟩
  rw [portfolioKey, bind_eq_ok]
  exact ⟨_, hmap, pure_eq_ok.mpr (hid _)⟩

theorem exposureWeights_eq_ok {portfolio : List (Row τ)} {cells : List CellRow}
    {w : PortfolioWeights} {left : List (Option (List TypedKey) × ℚ)}
    {right : List (KeyTuple × List TypedKey)}
    (hleft : portfolio.mapM (typedPortfolioRow casts keys) = .ok left)
    (hright : cells.mapM (typedRow casts keys) = .ok right) :
    exposureWeights casts keys portfolio cells = .ok w ↔
      Join.inner Prod.fst (fun c => c.1.2) left right.zipIdx ≠ [] ∧ weightsOf left right = w := by
  have hcolumns : ∃ r, (keys.mapM fun key => cells.mapM (typedAt casts key)) = .ok r := by
    apply exists_mapM_ok
    intro key hkey
    apply exists_mapM_ok
    intro row hrow
    obtain ⟨c, -, hc⟩ := exists_of_forall₂ (mapM_eq_ok.mp hright) hrow
    obtain ⟨typed, hall, -⟩ := typedRow_eq_ok.mp hc
    obtain ⟨entry, -, hentry⟩ := exists_of_forall₂ hall hkey
    exact ⟨entry, hentry⟩
  obtain ⟨r, hr⟩ := hcolumns
  simp only [exposureWeights, bind_eq_ok, hleft, hr, hright, Except.ok.injEq, exists_eq_left',
    ensure_eq_ok, pure_eq_ok]
  simp

/-- Whatever the portfolio, each of its rows counts once for a table of valid cells, exactly where
no two cells have one typed key. -/
theorem countsOnce_iff (casts : Casts (Resolved τ)) (engine : Engine) (value : RateTableValue)
    (keys : List RateTableKey) (cells : List CellRow)
    (hsound : Sound engine (keys.map RateTableKey.name) value cells) :
    (∀ portfolio left right w, portfolio.mapM (typedPortfolioRow casts keys) = .ok left →
      cells.mapM (typedRow casts keys) = .ok right →
      exposureWeights casts keys portfolio cells = .ok w → CountsOnce left right w) ↔
    ∀ right, cells.mapM (typedRow casts keys) = .ok right → (right.map Prod.snd).Nodup := by
  constructor
  · intro h right hright
    rw [List.nodup_iff_count_le_one]
    intro typed
    by_contra! hlt
    have hmem : typed ∈ right.map Prod.snd := List.count_pos_iff.mp (by omega)
    obtain ⟨c, hc, rfl⟩ := List.mem_map.mp hmem
    obtain ⟨row, -, hrow⟩ := exists_of_forall₂ (List.Forall₂.flip (mapM_eq_ok.mp hright)) hc
    have hleft : [rowOf c.2].mapM (typedPortfolioRow casts keys) = .ok [(some c.2, 1)] :=
      mapM_eq_ok.mpr (.cons (typedPortfolioRow_rowOf hrow) .nil)
    have hjoined :
        Join.inner Prod.fst (fun c => c.1.2) [(some c.2, (1 : ℚ))] right.zipIdx ≠ [] := by
      obtain ⟨i, hi, hget⟩ := List.mem_iff_getElem.mp hc
      apply List.ne_nil_of_mem (a := ((some c.2, 1), (c, i)))
      rw [Join.mem_inner, List.mk_mem_zipIdx_iff_getElem?, List.getElem?_eq_getElem hi, hget]
      exact ⟨List.mem_cons_self, rfl, rfl⟩
    have honce := (h _ _ _ _ hleft hright ((exposureWeights_eq_ok hleft hright).mpr
      ⟨hjoined, rfl⟩)).once (some c.2, 1) List.mem_cons_self
    rw [List.count, List.countP_map] at hlt
    have hsame : (right.countP ((fun d => d == c.2) ∘ Prod.snd)) =
        right.countP fun d => some c.2 = some d.2 := by
      apply List.countP_congr
      intro d _
      simp only [Function.comp_apply, decide_eq_true_eq, beq_iff_eq, Option.some.injEq]
      exact eq_comm
    rw [hsame] at hlt
    exact absurd honce (not_le.mpr hlt)
  · intro h portfolio left right w hleft hright hw
    obtain ⟨-, rfl⟩ := (exposureWeights_eq_ok hleft hright).mp hw
    apply countsOnce_weightsOf _ (h right hright)
    have htexts : cells.map (keyOf (keys.map RateTableKey.name)) =
        (right.map Prod.fst).map some := by
      have hall := mapM_eq_ok.mp hright
      clear hright hleft hw h hsound
      induction hall with
      | nil => rfl
      | cons hrow _ ih =>
        rw [List.map_cons, List.map_cons, List.map_cons, ih, keyOf_of_typedRow hrow]
    have hnodup := hsound.nodup
    rw [htexts] at hnodup
    exact hnodup.of_map some

/-! ## An age written in two ways -/

/-- Casts of columns that are all of the types of the keys. -/
def noCasts : Casts (Resolved Empty) where
  fromisoformat _ := none
  toFloat _ := none
  toBoolean _ := none
  toText _ := none
  toLowercase s := s
  toDate _ := none

def ageKey : RateTableKey := ⟨"age", .int, none, none⟩

def oneInsured : List (Row Empty) := [⟨[some (.key (.int 1))], 10⟩]

theorem sound_ages {level level' : String} (hne : level ≠ level') :
    Sound literalEngine ["age"] ⟨"rel", .relativity, "factor", none, none⟩
      [ageRow level, ageRow level'] := by
  have hkey : ∀ l, keyOf ["age"] (ageRow l) = some [l] := fun l => rfl
  have hone : parse "1" = some (.finite 1) := by with_unfolding_all decide
  have hparses : cellParses literalEngine "1" = true := by decide
  have hvalue : ∀ l key, valueIssue literalEngine ⟨"rel", .relativity, "factor", none, none⟩ key
      (ageRow l) = none := by
    intro l key
    have hget : (ageRow l).get? "rel" = some "1" := rfl
    simp [valueIssue, hget, hone, hparses, Number.toRat?]
  refine ⟨?_, ?_, ?_⟩
  · intro row hrow
    simp only [List.mem_cons, List.not_mem_nil, or_false] at hrow
    rcases hrow with rfl | rfl
    · exact ⟨_, hkey level⟩
    · exact ⟨_, hkey level'⟩
  · simp [hkey, hne]
  · intro row hrow key _
    simp only [List.mem_cons, List.not_mem_nil, or_false] at hrow
    rcases hrow with rfl | rfl
    · exact hvalue level key
    · exact hvalue level' key

/-- The insured of age 1 counts once, and at her own level, where the ages are 1 and 2. -/
theorem ages_countOnce :
    ∃ left right w, oneInsured.mapM (typedPortfolioRow noCasts [ageKey]) = .ok left ∧
      [ageRow "1", ageRow "2"].mapM (typedRow noCasts [ageKey]) = .ok right ∧
      exposureWeights noCasts [ageKey] oneInsured [ageRow "1", ageRow "2"] = .ok w ∧
      w = ⟨[(["1"], 10)], 10, 10⟩ ∧ CountsOnce left right w := by
  have hright : [ageRow "1", ageRow "2"].mapM (typedRow noCasts [ageKey]) =
      .ok [(["1"], [.int 1]), (["2"], [.int 2])] := by decide
  have hleft : oneInsured.mapM (typedPortfolioRow noCasts [ageKey]) =
      .ok [(some [.int 1], 10)] := by decide
  have hw : exposureWeights noCasts [ageKey] oneInsured [ageRow "1", ageRow "2"] =
      .ok ⟨[(["1"], 10)], 10, 10⟩ := by with_unfolding_all decide
  have honce := (countsOnce_iff noCasts literalEngine _ [ageKey] [ageRow "1", ageRow "2"]
    (sound_ages (by decide))).mpr
  refine ⟨_, _, _, hleft, hright, hw, rfl, honce ?_ _ _ _ _ hleft hright hw⟩
  intro right h
  rw [hright] at h
  cases h
  decide

/-- The ages 1 and 01 are one number, and ten years of exposure count as twenty. -/
theorem paddedAge_countsTwice :
    Sound literalEngine ["age"] ⟨"rel", .relativity, "factor", none, none⟩
        [ageRow "1", ageRow "01"] ∧
      exposureWeights noCasts [ageKey] oneInsured [ageRow "1", ageRow "01"] =
        .ok ⟨[(["1"], 10), (["01"], 10)], 10, 20⟩ :=
  ⟨sound_ages (by decide), by with_unfolding_all decide⟩

end Results

end GiPricing.RateTables.Portfolio
