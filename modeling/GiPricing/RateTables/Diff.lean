import GiPricing.Merge.Delta
import GiPricing.Money.Range
import GiPricing.RateTables.Truthful

/-! # The diff of two versions

The changed cells of two sets of rows with the exposure of each, and the summary that is computed
from them.
-/

namespace GiPricing.RateTables.Weighted

open Failure Merge Money

/-! ## The cells -/

/-- `RateTableDiffCell`, with its weight. -/
structure DiffCell extends RateTableDiffCell where
  weight : Option ℚ
  deriving DecidableEq

abbrev Weights := Option (KeyTuple → Option ℚ)

/-- A cell of the current version reads its exposure or zero, a removed cell none. -/
def Weights.weigh (weights : Weights) (key : KeyTuple) (new : Option ℚ) : Option ℚ :=
  weights.bind fun exposure => new.map fun _ => (exposure key).getD 0

/-- The change of a value, and the change in percent of a baseline that is not zero. -/
def changes (old new : ℚ) : Except MoneyError (ℚ × Option ℚ) := do
  let absChange ← fix (new - old)
  if old = 0 then return (absChange, none)
  else
    let ratio ← fix (absChange / old)
    let pct ← fix (ratio * 100)
    return (absChange, some pct)

def diffCell (weights : Weights) (before after : List (KeyTuple × ℚ)) (key : KeyTuple) :
    Except Refusal DiffCell :=
  match indexGet before key, indexGet after key with
  | some old, some new => do
    let (absChange, pct) ← (changes old new).mapError fun _ => .decimalOverflow
    return ⟨⟨key, .changed, some old, some new, some absChange, pct⟩, weights.weigh key (some new)⟩
  | none, new => .ok ⟨⟨key, .added, none, new, none, none⟩, weights.weigh key new⟩
  | old, none => .ok ⟨⟨key, .removed, old, none, none, none⟩, weights.weigh key none⟩

def changedKeys (before after : List (KeyTuple × ℚ)) : List KeyTuple :=
  (((before ++ after).map Prod.fst).dedup.filter fun key =>
    indexGet before key ≠ indexGet after key).mergeSort fun a b => decide (a ≤ b)

/-- `_diff_cells`. -/
def diffCells (baseline current : List CellRow) (v : RateTableVersion) (weights : Weights) :
    Except Refusal (List DiffCell) := do
  let before ← indexRows v.keyNames v.value.name baseline
  let after ← indexRows v.keyNames v.value.name current
  (changedKeys before after).mapM (diffCell weights before after)

/-! ## The summary -/

structure Diff where
  changedCells : ℕ
  maxAbsChangePct : Option ℚ
  exposureWeightedMeanChangePct : Option ℚ
  deriving DecidableEq

inductive SummaryError
  | overflow
  | divisionByZero
  deriving DecidableEq

/-- `sum` from a decimal zero. -/
def sumOf (l : List ℚ) : Except MoneyError ℚ := l.foldlM (fun total q => fix (total + q)) 0

/-- The weight and the percentage of each comparable cell that carries a weight. -/
def weighted (cells : List DiffCell) : List (ℚ × ℚ) := cells.filterMap fun c =>
  match c.weight, c.relChangePct with
  | some weight, some pct => if weight = 0 then none else some (weight, pct)
  | _, _ => none

def weightedMean (pairs : List (ℚ × ℚ)) : Except SummaryError ℚ := do
  let totalWeight ← (sumOf (pairs.map Prod.fst)).mapError fun _ => .overflow
  let products ← (pairs.mapM fun p => fix (p.1 * p.2)).mapError fun _ => .overflow
  let total ← (sumOf products).mapError fun _ => .overflow
  ensure (totalWeight ≠ 0) .divisionByZero
  (fix (total / totalWeight)).mapError fun _ => .overflow

/-- `diff_summary`. -/
def diffSummary (cells : List DiffCell) : Except SummaryError Diff := do
  let maxAbs := ((cells.filterMap fun c => c.relChangePct).map fun pct => |pct|).max?
  if weighted cells = [] then return ⟨cells.length, maxAbs, none⟩
  else
    let mean ← weightedMean (weighted cells)
    return ⟨cells.length, maxAbs, some mean⟩

/-! ## The entries of a diff -/

def DiffCell.entry (c : DiffCell) : Entry KeyTuple ℚ := ⟨c.key, c.baselineValue, c.currentValue⟩

/-- A cell put into a table: a removed key goes, another one takes the current value. -/
def DiffCell.apply (table : KeyTuple → Option ℚ) (c : DiffCell) : KeyTuple → Option ℚ :=
  match c.change with
  | .removed => Function.update table c.key none
  | .added | .changed => Function.update table c.key c.currentValue

section Cells

variable {baseline current : List CellRow} {v : RateTableVersion} {weights weights' : Weights}
  {before after : List (KeyTuple × ℚ)} {key : KeyTuple} {c : DiffCell} {cells : List DiffCell}

theorem indexGet_eq_some (hn : (before.map Prod.fst).Nodup) {q : ℚ} :
    indexGet before key = some q ↔ (key, q) ∈ before := by
  constructor
  · intro h
    rw [indexGet, List.lookup_eq_some_iff] at h
    obtain ⟨pre, post, hsplit, -⟩ := h
    apply List.mem_reverse.mp
    rw [hsplit]
    exact List.mem_append_right _ List.mem_cons_self
  · intro h
    have hfound : indexGet (before.map fun e => (e.1, e.2)) key = some q := indexGet_eq hn h
    simpa using hfound

theorem indexGet_isSome {q : ℚ} (h : indexGet before key = some q) : key ∈ before.map Prod.fst := by
  rw [indexGet, List.lookup_eq_some_iff] at h
  obtain ⟨pre, post, hsplit, -⟩ := h
  apply List.mem_map.mpr
  refine ⟨(key, q), List.mem_reverse.mp ?_, rfl⟩
  rw [hsplit]
  exact List.mem_append_right _ List.mem_cons_self

theorem nodup_changedKeys : (changedKeys before after).Nodup := by
  rw [changedKeys, (List.mergeSort_perm _ _).nodup_iff]
  exact (List.nodup_dedup _).filter _

theorem mem_changedKeys :
    key ∈ changedKeys before after ↔ indexGet before key ≠ indexGet after key := by
  rw [changedKeys, List.mem_mergeSort, List.mem_filter, List.mem_dedup, List.map_append,
    List.mem_append, decide_eq_true_iff, and_iff_right_iff_imp]
  intro hne
  cases hb : indexGet before key with
  | some q => exact .inl (indexGet_isSome hb)
  | none =>
    cases ha : indexGet after key with
    | some q => exact .inr (indexGet_isSome ha)
    | none => exact absurd (hb.trans ha.symm) hne

/-- What a changed cell holds: the values of its key in both tables. -/
structure IsCell (before after : List (KeyTuple × ℚ)) (key : KeyTuple) (c : DiffCell) : Prop where
  sameKey : c.key = key
  old : c.baselineValue = indexGet before key
  new : c.currentValue = indexGet after key
  added : c.change = .added ↔ indexGet before key = none
  removed : c.change = .removed ↔ indexGet before key ≠ none ∧ indexGet after key = none
  absChange : c.absChange = (indexGet before key).bind fun old =>
    (indexGet after key).map fun new => ambient (new - old)

theorem isCell_of_diffCell (h : diffCell weights before after key = .ok c) :
    IsCell before after key c := by
  cases hb : indexGet before key with
  | none =>
    simp only [diffCell, hb, Except.ok.injEq] at h
    subst h
    constructor <;> simp [hb]
  | some old =>
    cases ha : indexGet after key with
    | none =>
      simp only [diffCell, hb, ha, Except.ok.injEq] at h
      subst h
      constructor <;> simp [hb, ha]
    | some new =>
      simp only [diffCell, hb, ha, bind_eq_ok, mapError_eq_ok, pure_eq_ok] at h
      obtain ⟨⟨absChange, pct⟩, hchanges, rfl⟩ := h
      obtain ⟨change, hchange, hrest⟩ := bind_eq_ok.mp hchanges
      have habs : change = absChange := by
        split_ifs at hrest
        · exact (Prod.ext_iff.mp (pure_eq_ok.mp hrest)).1
        · simp only [bind_eq_ok, pure_eq_ok] at hrest
          obtain ⟨ratio, hratio, percent, hpercent, hpair⟩ := hrest
          exact (Prod.ext_iff.mp hpair).1
      rw [habs] at hchange
      have := (fix_eq_ok.mp hchange).2
      constructor <;> simp [hb, ha, this]

theorem diffCells_eq_ok (hb : indexRows v.keyNames v.value.name baseline = .ok before)
    (ha : indexRows v.keyNames v.value.name current = .ok after) :
    diffCells baseline current v weights = .ok cells ↔
      List.Forall₂ (fun key c => diffCell weights before after key = .ok c)
        (changedKeys before after) cells := by
  simp only [diffCells, bind_eq_ok, hb, ha, Except.ok.injEq, exists_eq_left', mapM_eq_ok]

/-- The cells of the keys at which two tables differ. -/
def IsDiff (before after : List (KeyTuple × ℚ)) (cells : List DiffCell) : Prop :=
  List.Forall₂ (IsCell before after) (changedKeys before after) cells

theorem isDiff_of_diffCells (hb : indexRows v.keyNames v.value.name baseline = .ok before)
    (ha : indexRows v.keyNames v.value.name current = .ok after)
    (h : diffCells baseline current v weights = .ok cells) : IsDiff before after cells :=
  ((diffCells_eq_ok hb ha).mp h).imp fun _ _ => isCell_of_diffCell

theorem IsDiff.isCell (h : IsDiff before after cells) (hc : c ∈ cells) :
    IsCell before after c.key c := by
  obtain ⟨key, -, hkey⟩ := exists_of_forall₂ (List.Forall₂.flip h) hc
  rw [hkey.sameKey]
  exact hkey

theorem IsDiff.keys (h : IsDiff before after cells) :
    (cells.map DiffCell.entry).map Entry.key = changedKeys before after := by
  have hsame : List.Forall₂ (fun key c => key = (DiffCell.entry c).key)
      (changedKeys before after) cells := h.imp fun _ _ hc => hc.sameKey.symm
  rw [List.map_map, eq_comm, ← List.forall₂_eq_eq_eq, List.forall₂_map_right_iff]
  exact hsame

theorem IsDiff.isDelta (h : IsDiff before after cells) :
    IsDelta (indexGet before) (indexGet after) (cells.map DiffCell.entry) := by
  constructor
  · rw [h.keys]
    exact nodup_changedKeys
  · intro key
    rw [h.keys]
    exact mem_changedKeys
  · intro e he
    obtain ⟨c, hc, rfl⟩ := List.mem_map.mp he
    exact (h.isCell hc).old
  · intro e he
    obtain ⟨c, hc, rfl⟩ := List.mem_map.mp he
    exact (h.isCell hc).new

/-- The cells put into the first table make the second. -/
theorem IsDiff.applied (h : IsDiff before after cells) :
    cells.foldl DiffCell.apply (indexGet before) = indexGet after := by
  rw [← h.isDelta.patched_eq, patched, List.foldl_map]
  apply List.foldl_ext
  intro table c hc
  have hcell := h.isCell hc
  rw [DiffCell.apply, DiffCell.entry]
  cases hchange : c.change with
  | removed => rw [hcell.new, (hcell.removed.mp hchange).2]
  | added => rfl
  | changed => rfl

theorem changedKeys_comm : changedKeys before after = changedKeys after before := by
  apply List.Perm.eq_of_pairwise' (r := fun a b => a ≤ b)
  · exact List.pairwise_mergeSort' (· ≤ ·) _
  · exact List.pairwise_mergeSort' (· ≤ ·) _
  · apply (List.perm_ext_iff_of_nodup nodup_changedKeys nodup_changedKeys).mpr
    intro key
    rw [mem_changedKeys, mem_changedKeys, ne_comm]

/-- A cell of the diff in the other direction. -/
structure Reverses (c c' : DiffCell) : Prop where
  key : c'.key = c.key
  old : c'.baselineValue = c.currentValue
  new : c'.currentValue = c.baselineValue
  added : c'.change = .added ↔ c.change = .removed
  removed : c'.change = .removed ↔ c.change = .added
  absChange : c'.absChange = c.absChange.map fun q => -q

theorem IsCell.reverses {c' : DiffCell} (h : IsCell before after key c)
    (h' : IsCell after before key c') (hne : indexGet before key ≠ indexGet after key) :
    Reverses c c' where
  key := h'.sameKey.trans h.sameKey.symm
  old := h'.old.trans h.new.symm
  new := h'.new.trans h.old.symm
  added := by
    rw [h'.added, h.removed]
    constructor
    · intro hnone
      exact ⟨fun hb => hne (hb.trans hnone.symm), hnone⟩
    · exact And.right
  removed := by
    rw [h'.removed, h.added]
    constructor
    · exact And.right
    · intro hnone
      exact ⟨fun ha => hne (hnone.trans ha.symm), hnone⟩
  absChange := by
    rw [h'.absChange, h.absChange]
    cases indexGet before key with
    | none => cases indexGet after key <;> rfl
    | some old =>
      cases indexGet after key with
      | none => rfl
      | some new =>
        simp only [Option.bind_some, Option.map_some, Option.some.injEq]
        rw [← neg_sub, ambient_neg]

theorem IsDiff.reverses {cells' : List DiffCell} (h : IsDiff before after cells)
    (h' : IsDiff after before cells') : List.Forall₂ Reverses cells cells' := by
  have hne : ∀ key ∈ changedKeys before after, indexGet before key ≠ indexGet after key :=
    fun key hkey => mem_changedKeys.mp hkey
  rw [IsDiff, ← changedKeys_comm] at h'
  rw [IsDiff] at h
  revert h h' hne
  generalize changedKeys before after = keys
  intro h h' hne
  induction h generalizing cells' with
  | nil =>
    cases h'
    exact .nil
  | cons hc _ ih =>
    obtain _ | ⟨hc', hrest⟩ := h'
    exact .cons (hc.reverses hc' (hne _ List.mem_cons_self))
      (ih hrest fun key hkey => hne key (List.mem_cons_of_mem _ hkey))

end Cells

/-! ## The figures of a summary -/

section Summary

variable {l : List ℚ} {s acc m : ℚ} {c : DiffCell} {cells : List DiffCell} {summary : Diff}

theorem le_of_sum_from {N : ℤ} (hN : etiny ≤ N) (hacc : (10 : ℚ) ^ N ≤ acc) (hl : ∀ q ∈ l, 0 ≤ q)
    (h : l.foldlM (fun total q => fix (total + q)) acc = .ok s) : (10 : ℚ) ^ N ≤ s := by
  induction l generalizing acc with
  | nil => exact hacc.trans_eq (pure_eq_ok.mp h)
  | cons q l ih =>
    rw [List.foldlM_cons, bind_eq_ok] at h
    obtain ⟨next, hnext, hrest⟩ := h
    apply ih _ (fun r hr => hl r (List.mem_cons_of_mem _ hr)) hrest
    rw [← (fix_eq_ok.mp hnext).2]
    exact le_ambient_of_le hN (hacc.trans (le_add_of_nonneg_right (hl q List.mem_cons_self)))

theorem le_sumOf {N : ℤ} (hN : etiny ≤ N) (hne : l ≠ []) (hl : ∀ q ∈ l, (10 : ℚ) ^ N ≤ q)
    (h : sumOf l = .ok s) : (10 : ℚ) ^ N ≤ s := by
  have htiny : (0 : ℚ) < 10 ^ N := zpow_pos (by norm_num) _
  cases l with
  | nil => exact absurd rfl hne
  | cons q l =>
    rw [sumOf, List.foldlM_cons, bind_eq_ok] at h
    obtain ⟨next, hnext, hrest⟩ := h
    apply le_of_sum_from hN _ (fun r hr => htiny.le.trans (hl r (List.mem_cons_of_mem _ hr))) hrest
    rw [← (fix_eq_ok.mp hnext).2, zero_add]
    exact le_ambient_of_le hN (hl q List.mem_cons_self)

/-- However many numbers are summed, the sum stays within so many digits of the largest: a number is
lost next to a sum of more digits. -/
theorem sumOf_ok {b : ℤ} (hb : etiny ≤ b) (hmax : b + Money.prec + 1 ≤ Money.maxExponent)
    (hl : ∀ q ∈ l, |q| ≤ 10 ^ b) : ∃ s, sumOf l = .ok s ∧ |s| ≤ 10 ^ (b + Money.prec + 1) := by
  have hplaces : (Money.prec : ℤ) = 28 := rfl
  have hfrom : ∀ l : List ℚ, (∀ q ∈ l, |q| ≤ 10 ^ b) → ∀ acc : ℚ,
      |acc| ≤ 10 ^ (b + Money.prec + 1) →
        ∃ s, l.foldlM (fun total q => fix (total + q)) acc = .ok s ∧
          |s| ≤ 10 ^ (b + Money.prec + 1) := by
    intro l
    induction l with
    | nil => exact fun _ acc hacc => ⟨acc, rfl, hacc⟩
    | cons q l ih =>
      intro hl acc hacc
      have hsum : |ambient (acc + q)| ≤ 10 ^ (b + Money.prec + 1) := by
        apply abs_ambient_le_of_absorbed (by omega)
        rw [show b + Money.prec + 1 - Money.prec - 1 = b by ring]
        exact (abs_add_le acc q).trans (add_le_add hacc (hl q List.mem_cons_self))
      have hfix : fix (acc + q) = .ok (ambient (acc + q)) := by
        refine fix_eq_ok.mpr ⟨hsum.trans_lt ?_, rfl⟩
        exact zpow_lt_zpow_right₀ (by norm_num) (by omega)
      obtain ⟨s, hs, hle⟩ := ih (fun r hr => hl r (List.mem_cons_of_mem _ hr)) _ hsum
      exact ⟨s, by rw [List.foldlM_cons, bind_eq_ok]; exact ⟨_, hfix, hs⟩, hle⟩
  exact hfrom l hl 0 (by rw [abs_zero]; exact zpow_nonneg (by norm_num) _)

/-- The standard context keeps every digit of the running sums. -/
def Exact (l : List ℚ) : Prop := ∀ n, ambient (l.take n).sum = (l.take n).sum

theorem sumOf_exact (h : sumOf l = .ok s) (hexact : Exact l) : s = l.sum := by
  have hfrom : ∀ pre post : List ℚ, l = pre ++ post →
      post.foldlM (fun total q => fix (total + q)) pre.sum = .ok s → s = l.sum := by
    intro pre post
    induction post generalizing pre with
    | nil =>
      intro hl hs
      rw [hl, List.append_nil]
      exact (pure_eq_ok.mp hs).symm
    | cons q post ih =>
      intro hl hs
      rw [List.foldlM_cons, bind_eq_ok] at hs
      obtain ⟨next, hnext, hrest⟩ := hs
      apply ih (pre ++ [q]) (by rw [hl, List.append_assoc]; rfl)
      have htake : l.take (pre.length + 1) = pre ++ [q] := by
        rw [hl, List.take_length_add_append]
        rfl
      have hsum := hexact (pre.length + 1)
      rw [htake, List.sum_append, List.sum_singleton] at hsum
      rw [List.sum_append, List.sum_singleton, ← hsum, (fix_eq_ok.mp hnext).2]
      exact hrest
  exact hfrom [] l rfl h

theorem mem_weighted {p : ℚ × ℚ} : p ∈ weighted cells ↔
    ∃ c ∈ cells, c.weight = some p.1 ∧ c.relChangePct = some p.2 ∧ p.1 ≠ 0 := by
  rw [weighted, List.mem_filterMap]
  apply exists_congr
  intro c
  apply and_congr_right
  intro _
  cases c.weight with
  | none => simp
  | some weight =>
    cases c.relChangePct with
    | none => simp
    | some pct =>
      simp only [Option.ite_none_left_eq_some, Option.some.injEq, Prod.ext_iff]
      grind

/-- The figures of a summary, computed from the cells. -/
structure Recomputed (cells : List DiffCell) (summary : Diff) : Prop where
  count : summary.changedCells = cells.countP (·.change = .added) +
    cells.countP (·.change = .removed) + cells.countP (·.change = .changed)
  extreme : ∀ m, summary.maxAbsChangePct = some m ↔
    IsGreatest {x | ∃ c ∈ cells, ∃ pct, c.relChangePct = some pct ∧ |pct| = x} m
  noMean : summary.exposureWeightedMeanChangePct = none ↔
    ∀ c ∈ cells, ∀ w pct, c.weight = some w → c.relChangePct = some pct → w = 0
  mean : ∀ m, summary.exposureWeightedMeanChangePct = some m →
    ∃ totalWeight products total, sumOf ((weighted cells).map Prod.fst) = .ok totalWeight ∧
      (weighted cells).mapM (fun p => fix (p.1 * p.2)) = .ok products ∧
      sumOf products = .ok total ∧ totalWeight ≠ 0 ∧ m = ambient (total / totalWeight)
  exactMean : ∀ m, summary.exposureWeightedMeanChangePct = some m →
    Exact ((weighted cells).map Prod.fst) → Exact ((weighted cells).map fun p => p.1 * p.2) →
    (∀ p ∈ weighted cells, ambient (p.1 * p.2) = p.1 * p.2) →
    m = ambient (((weighted cells).map fun p => p.1 * p.2).sum /
      ((weighted cells).map Prod.fst).sum)

theorem length_eq_countP : cells.length = cells.countP (·.change = .added) +
    cells.countP (·.change = .removed) + cells.countP (·.change = .changed) := by
  induction cells with
  | nil => rfl
  | cons c cells ih =>
    simp only [List.length_cons, List.countP_cons, ih]
    cases c.change <;> simp <;> omega

theorem weightedMean_eq_ok {pairs : List (ℚ × ℚ)} : weightedMean pairs = .ok m ↔
    ∃ totalWeight products total, sumOf (pairs.map Prod.fst) = .ok totalWeight ∧
      pairs.mapM (fun p => fix (p.1 * p.2)) = .ok products ∧ sumOf products = .ok total ∧
      totalWeight ≠ 0 ∧ fix (total / totalWeight) = .ok m := by
  simp only [weightedMean, bind_eq_ok, mapError_eq_ok, ensure_eq_ok]
  constructor
  · rintro ⟨totalWeight, hweight, products, hproducts, total, htotal, done, hne, hm⟩
    exact ⟨totalWeight, products, total, hweight, hproducts, htotal, hne, hm⟩
  · rintro ⟨totalWeight, products, total, hweight, hproducts, htotal, hne, hm⟩
    exact ⟨totalWeight, hweight, products, hproducts, total, htotal, ⟨⟩, hne, hm⟩

theorem extreme_iff :
    ((cells.filterMap fun c => c.relChangePct).map fun pct => |pct|).max? = some m ↔
    IsGreatest {x | ∃ c ∈ cells, ∃ pct, c.relChangePct = some pct ∧ |pct| = x} m := by
  have hmem : ∀ x, x ∈ (cells.filterMap fun c => c.relChangePct).map (fun pct => |pct|) ↔
      ∃ c ∈ cells, ∃ pct, c.relChangePct = some pct ∧ |pct| = x := by
    intro x
    simp only [List.mem_map, List.mem_filterMap]
    constructor
    · rintro ⟨pct, ⟨c, hc, hpct⟩, hx⟩
      exact ⟨c, hc, pct, hpct, hx⟩
    · rintro ⟨c, hc, pct, hpct, hx⟩
      exact ⟨pct, ⟨c, hc, hpct⟩, hx⟩
  rw [List.max?_eq_some_iff, hmem]
  apply and_congr_right
  intro _
  constructor
  · intro h x hx
    exact h x ((hmem x).mpr hx)
  · intro h x hx
    exact h ((hmem x).mp hx)

theorem mapM_fix_exact {pairs : List (ℚ × ℚ)} {products : List ℚ}
    (h : pairs.mapM (fun p => fix (p.1 * p.2)) = .ok products)
    (hexact : ∀ p ∈ pairs, ambient (p.1 * p.2) = p.1 * p.2) :
    products = pairs.map fun p => p.1 * p.2 := by
  have hall := mapM_eq_ok.mp h
  clear h
  induction hall with
  | nil => rfl
  | cons hp _ ih =>
    rw [List.map_cons, ← ih fun p hp => hexact p (List.mem_cons_of_mem _ hp),
      ← (fix_eq_ok.mp hp).2, hexact _ List.mem_cons_self]

theorem recomputed (h : diffSummary cells = .ok summary) : Recomputed cells summary := by
  have hnone : weighted cells = [] ↔
      ∀ c ∈ cells, ∀ w pct, c.weight = some w → c.relChangePct = some pct → w = 0 := by
    rw [List.eq_nil_iff_forall_not_mem]
    constructor
    · intro hall c hc w pct hw hpct
      by_contra hne
      exact hall (w, pct) (mem_weighted.mpr ⟨c, hc, hw, hpct, hne⟩)
    · intro hall p hp
      obtain ⟨c, hc, hw, hpct, hne⟩ := mem_weighted.mp hp
      exact hne (hall c hc _ _ hw hpct)
  rw [diffSummary] at h
  split_ifs at h with hempty
  · obtain rfl := pure_eq_ok.mp h
    refine ⟨length_eq_countP, fun m => extreme_iff, ?_, ?_, ?_⟩
    · simpa using hnone.mp hempty
    · intro m hm
      cases hm
    · intro m hm
      cases hm
  · simp only [bind_eq_ok, pure_eq_ok] at h
    obtain ⟨mean, hmean, rfl⟩ := h
    obtain ⟨totalWeight, products, total, hweight, hproducts, htotal, hne, hfix⟩ :=
      weightedMean_eq_ok.mp hmean
    have hvalue := (fix_eq_ok.mp hfix).2
    refine ⟨length_eq_countP, fun m => extreme_iff, ?_, ?_, ?_⟩
    · exact ⟨fun hm => (Option.some_ne_none _ hm).elim, fun hall => absurd (hnone.mpr hall) hempty⟩
    · rintro m ⟨⟩
      exact ⟨totalWeight, products, total, hweight, hproducts, htotal, hne, hvalue.symm⟩
    · rintro m ⟨⟩ hexact hexact' hproduct
      obtain rfl := mapM_fix_exact hproducts hproduct
      rw [← hvalue, sumOf_exact hweight hexact, sumOf_exact htotal hexact']

theorem mapError_overflow_ne {α : Type} {x : Except MoneyError α} :
    x.mapError (fun _ => SummaryError.overflow) ≠ .error .divisionByZero := by
  cases x <;> simp [Except.mapError]

theorem sumOf_of_divisionByZero {pairs : List (ℚ × ℚ)}
    (h : weightedMean pairs = .error .divisionByZero) : sumOf (pairs.map Prod.fst) = .ok 0 := by
  rcases bind_eq_error.mp h with h | ⟨totalWeight, hweight, h⟩
  · exact absurd h mapError_overflow_ne
  rcases bind_eq_error.mp h with h | ⟨products, -, h⟩
  · exact absurd h mapError_overflow_ne
  rcases bind_eq_error.mp h with h | ⟨total, -, h⟩
  · exact absurd h mapError_overflow_ne
  rcases bind_eq_error.mp h with h | ⟨done, -, h⟩
  · rw [ensure_eq_error, not_not] at h
    rw [← h.1]
    exact mapError_eq_ok.mp hweight
  · exact absurd h mapError_overflow_ne

theorem diffSummary_ne_divisionByZero
    {N : ℤ} (hN : etiny ≤ N) (hw : ∀ c ∈ cells, ∀ w, c.weight = some w → w = 0 ∨ (10 : ℚ) ^ N ≤ w) :
    diffSummary cells ≠ .error .divisionByZero := by
  intro h
  by_cases hempty : weighted cells = []
  · rw [diffSummary, if_pos hempty] at h
    cases h
  · rw [diffSummary, if_neg hempty] at h
    have hmean : weightedMean (weighted cells) = .error .divisionByZero := by
      rcases bind_eq_error.mp h with h | ⟨m, -, hm⟩
      · exact h
      · cases hm
    have hpos : (10 : ℚ) ^ N ≤ 0 := by
      apply le_sumOf hN _ _ (sumOf_of_divisionByZero hmean)
      · simpa using hempty
      · intro w hmem
        obtain ⟨p, hp, rfl⟩ := List.mem_map.mp hmem
        obtain ⟨c, hc, hweight, -, hne⟩ := mem_weighted.mp hp
        exact (hw c hc _ hweight).resolve_left hne
    exact absurd hpos (not_le.mpr (zpow_pos (by norm_num) _))

end Summary

/-! ## Results -/

def reach : ℤ := 1000

/-- Zero, or a number within the reach. -/
def Ordinary (q : ℚ) : Prop := |q| ≤ 10 ^ reach ∧ (q = 0 ∨ (10 : ℚ) ^ (-reach) ≤ |q|)

def exposurePlaces : ℕ := 6

/-- The reach of the change in percent of an ordinary number. -/
def pctReach : ℤ := reach + 1 + reach + 2

/-- The exposures of a portfolio have six places and are not negative. -/
def Weights.Exposures (weights : Weights) : Prop :=
  ∀ exposure, weights = some exposure → ∀ key w, exposure key = some w →
    ∃ n : ℕ, w = n / 10 ^ exposurePlaces

/-- The exposures are within the reach. -/
def Weights.Within (weights : Weights) : Prop :=
  ∀ exposure, weights = some exposure → ∀ key w, exposure key = some w → w ≤ 10 ^ reach

section Results

variable {before after : List (KeyTuple × ℚ)} {weights : Weights} {old new : ℚ} {key : KeyTuple}
  {c : DiffCell}

theorem changes_ok (hold : Ordinary old) (hnew : Ordinary new) :
    ∃ r, changes old new = .ok r ∧ ∀ pct, r.2 = some pct → |pct| ≤ 10 ^ pctReach := by
  have hpow : ∀ a b : ℤ, (10 : ℚ) ^ (a + b) = 10 ^ a * 10 ^ b :=
    fun a b => zpow_add₀ (by norm_num) a b
  have hpos : (0 : ℚ) < 10 ^ reach := zpow_pos (by norm_num) _
  have hchange : |new - old| ≤ 10 ^ (reach + 1) := by
    rw [hpow, zpow_one]
    have := abs_sub new old
    linarith [hold.1, hnew.1]
  have hfix := fix_of_le (by decide) (by decide) hchange
  rw [changes]
  split_ifs with hzero
  · exact ⟨_, bind_eq_ok.mpr ⟨_, hfix, rfl⟩, nofun⟩
  have hrange := abs_ambient_le (by decide) hchange
  have hsmall := hold.2.resolve_left hzero
  have hratio : |ambient (new - old) / old| ≤ 10 ^ (reach + 1 + reach) := by
    rw [abs_div, div_le_iff₀ (abs_pos.mpr hzero)]
    calc |ambient (new - old)| ≤ 10 ^ (reach + 1) := hrange
      _ = 10 ^ (reach + 1 + reach) * 10 ^ (-reach) := by rw [← hpow, add_neg_cancel_right]
      _ ≤ 10 ^ (reach + 1 + reach) * |old| :=
        mul_le_mul_of_nonneg_left hsmall (zpow_pos (by norm_num) _).le
  have hfix' := fix_of_le (by decide) (by decide) hratio
  have hpct : |ambient (ambient (new - old) / old) * 100| ≤ 10 ^ pctReach := by
    rw [pctReach, hpow, abs_mul]
    have := abs_ambient_le (by decide) hratio
    norm_num
    exact this
  refine ⟨_, bind_eq_ok.mpr ⟨_, hfix, bind_eq_ok.mpr ⟨_, hfix', bind_eq_ok.mpr
    ⟨_, fix_of_le (by decide) (by decide) hpct, rfl⟩⟩⟩, ?_⟩
  rintro pct ⟨⟩
  exact abs_ambient_le (by decide) hpct

theorem diffCell_ok (hb : ∀ q, indexGet before key = some q → Ordinary q)
    (ha : ∀ q, indexGet after key = some q → Ordinary q) :
    ∃ c, diffCell weights before after key = .ok c ∧
      ∀ pct, c.relChangePct = some pct → |pct| ≤ 10 ^ pctReach := by
  cases hold : indexGet before key with
  | none => simp [diffCell, hold]
  | some old =>
    cases hnew : indexGet after key with
    | none => simp [diffCell, hold, hnew]
    | some new =>
      obtain ⟨r, hr, hpct⟩ := changes_ok (hb old hold) (ha new hnew)
      simp only [diffCell, hold, hnew]
      exact ⟨_, bind_eq_ok.mpr ⟨r, mapError_eq_ok.mpr hr, rfl⟩, hpct⟩

theorem diffCell_weight (h : diffCell weights before after key = .ok c) :
    c.weight = weights.weigh key (indexGet after key) := by
  cases hold : indexGet before key with
  | none =>
    simp only [diffCell, hold, Except.ok.injEq] at h
    rw [← h]
  | some old =>
    cases hnew : indexGet after key with
    | none =>
      simp only [diffCell, hold, hnew, Except.ok.injEq] at h
      rw [← h]
    | some new =>
      simp only [diffCell, hold, hnew, bind_eq_ok, pure_eq_ok] at h
      obtain ⟨r, hr, rfl⟩ := h
      rfl

theorem Weights.Exposures.weigh_le (h : weights.Exposures) {value : Option ℚ} {w : ℚ}
    (hw : weights.weigh key value = some w) : w = 0 ∨ (10 : ℚ) ^ (-(exposurePlaces : ℤ)) ≤ w := by
  obtain ⟨exposure, hexposure, hvalue⟩ := Option.bind_eq_some_iff.mp hw
  obtain ⟨q, hq, rfl⟩ := Option.map_eq_some_iff.mp hvalue
  cases hkey : exposure key with
  | none => exact .inl rfl
  | some w =>
    obtain ⟨n, rfl⟩ := h exposure hexposure key w hkey
    rcases Nat.eq_zero_or_pos n with rfl | hn
    · exact .inl (by simp)
    · apply Or.inr
      have hn' : (1 : ℚ) ≤ n := by exact_mod_cast hn
      calc (10 : ℚ) ^ (-(exposurePlaces : ℤ)) = 1 / 10 ^ exposurePlaces := by
            rw [zpow_neg, zpow_natCast, one_div]
        _ ≤ n / 10 ^ exposurePlaces := div_le_div_of_nonneg_right hn' (by positivity)

theorem Weights.Within.weigh_le (h : weights.Within) {value : Option ℚ} {w : ℚ}
    (hw : weights.weigh key value = some w) : w ≤ 10 ^ reach := by
  obtain ⟨exposure, hexposure, hvalue⟩ := Option.bind_eq_some_iff.mp hw
  obtain ⟨q, hq, rfl⟩ := Option.map_eq_some_iff.mp hvalue
  cases hkey : exposure key with
  | none => exact zpow_nonneg (by norm_num) _
  | some w => exact h exposure hexposure key w hkey

/-- The figures of ordinary cells are within the range of the context. -/
theorem diffSummary_ok {cells : List DiffCell}
    (hpct : ∀ c ∈ cells, ∀ pct, c.relChangePct = some pct → |pct| ≤ 10 ^ pctReach)
    (hw : ∀ c ∈ cells, ∀ w, c.weight = some w →
      (w = 0 ∨ (10 : ℚ) ^ (-(exposurePlaces : ℤ)) ≤ w) ∧ w ≤ 10 ^ reach) :
    ∃ summary, diffSummary cells = .ok summary := by
  rw [diffSummary]
  split_ifs with hempty
  · exact ⟨_, rfl⟩
  have hpos : (0 : ℚ) < 10 ^ (-(exposurePlaces : ℤ)) := zpow_pos (by norm_num) _
  have hpairs : ∀ p ∈ weighted cells, (10 : ℚ) ^ (-(exposurePlaces : ℤ)) ≤ p.1 ∧ p.1 ≤ 10 ^ reach ∧
      |p.2| ≤ 10 ^ pctReach := by
    intro p hp
    obtain ⟨c, hc, hweight, hchange, hne⟩ := mem_weighted.mp hp
    obtain ⟨hlow, hhigh⟩ := hw c hc _ hweight
    exact ⟨hlow.resolve_left hne, hhigh, hpct c hc _ hchange⟩
  have hproduct : ∀ p ∈ weighted cells, |p.1 * p.2| ≤ 10 ^ (reach + pctReach) := by
    intro p hp
    obtain ⟨hlow, hhigh, hchange⟩ := hpairs p hp
    rw [abs_mul, abs_of_pos (hpos.trans_le hlow), zpow_add₀ (by norm_num)]
    exact mul_le_mul hhigh hchange (abs_nonneg _) (zpow_nonneg (by norm_num) _)
  have hweights : ∀ w ∈ (weighted cells).map Prod.fst, |w| ≤ 10 ^ reach := by
    intro w hmem
    obtain ⟨p, hp, rfl⟩ := List.mem_map.mp hmem
    obtain ⟨hlow, hhigh, -⟩ := hpairs p hp
    rwa [abs_of_pos (hpos.trans_le hlow)]
  obtain ⟨totalWeight, htotalWeight, -⟩ := sumOf_ok (by decide) (by decide) hweights
  have hlow : (10 : ℚ) ^ (-(exposurePlaces : ℤ)) ≤ totalWeight := by
    apply le_sumOf (by decide) (by simpa using hempty) _ htotalWeight
    intro w hmem
    obtain ⟨p, hp, rfl⟩ := List.mem_map.mp hmem
    exact (hpairs p hp).1
  obtain ⟨products, hproducts⟩ := exists_mapM_ok fun p hp =>
    ⟨_, fix_of_le (by decide) (by decide) (hproduct p hp)⟩
  have hlarge : ∀ x ∈ products, |x| ≤ 10 ^ (reach + pctReach) := by
    intro x hx
    obtain ⟨p, hp, hfix⟩ := exists_of_forall₂ (List.Forall₂.flip (mapM_eq_ok.mp hproducts)) hx
    rw [← (fix_eq_ok.mp hfix).2]
    exact abs_ambient_le (by decide) (hproduct p hp)
  obtain ⟨total, htotal, hbound⟩ := sumOf_ok (by decide) (by decide) hlarge
  have hratio : |total / totalWeight| ≤
      10 ^ (reach + pctReach + Money.prec + 1 + exposurePlaces) := by
    rw [abs_div, abs_of_pos (hpos.trans_le hlow), div_le_iff₀ (hpos.trans_le hlow)]
    calc |total| ≤ 10 ^ (reach + pctReach + Money.prec + 1) := hbound
      _ = 10 ^ (reach + pctReach + Money.prec + 1 + exposurePlaces) *
          10 ^ (-(exposurePlaces : ℤ)) := by
        rw [← zpow_add₀ (by norm_num), add_neg_cancel_right]
      _ ≤ 10 ^ (reach + pctReach + Money.prec + 1 + exposurePlaces) * totalWeight :=
        mul_le_mul_of_nonneg_left hlow (zpow_nonneg (by norm_num) _)
  have hmean : weightedMean (weighted cells) = .ok (ambient (total / totalWeight)) :=
    weightedMean_eq_ok.mpr ⟨totalWeight, products, total, htotalWeight, hproducts, htotal,
      (hpos.trans_le hlow).ne', fix_of_le (by decide) (by decide) hratio⟩
  exact ⟨_, bind_eq_ok.mpr ⟨_, hmean, rfl⟩⟩

/-- The diff of two tables is empty where they agree, leads from the first to the second, and is the
other way round where they change places. A summary has the figures of its cells. Of ordinary values
and exposures there is a diff and a summary. -/
theorem diff_faithful (baseline current : List CellRow) (v : RateTableVersion)
    (weights weights' : Weights) (before after : List (KeyTuple × ℚ))
    (hb : indexRows v.keyNames v.value.name baseline = .ok before)
    (ha : indexRows v.keyNames v.value.name current = .ok after)
    (hbn : (before.map Prod.fst).Nodup) (han : (after.map Prod.fst).Nodup)
    (hw : weights.Exposures) :
    (diffCells baseline current v weights = .ok [] ↔
      ∀ key q, (key, q) ∈ before ↔ (key, q) ∈ after) ∧
    (∀ cells, diffCells baseline current v weights = .ok cells → ∀ key q,
      cells.foldl DiffCell.apply (indexGet before) key = some q ↔ (key, q) ∈ after) ∧
    (∀ cells cells', diffCells baseline current v weights = .ok cells →
      diffCells current baseline v weights' = .ok cells' → List.Forall₂ Reverses cells cells') ∧
    (∀ cells, diffCells baseline current v weights = .ok cells →
      diffSummary cells ≠ .error .divisionByZero ∧
      ∀ summary, diffSummary cells = .ok summary → Recomputed cells summary) ∧
    ((∀ key q, (key, q) ∈ before ∨ (key, q) ∈ after → Ordinary q) →
      ∃ cells, diffCells baseline current v weights = .ok cells ∧
        (weights.Within → ∃ summary, diffSummary cells = .ok summary)) := by
  refine ⟨⟨?_, ?_⟩, ?_, ?_, ?_, ?_⟩
  · intro h key q
    have hsame := (isDiff_of_diffCells hb ha h).isDelta.nil_iff.mp rfl
    rw [← indexGet_eq_some hbn, ← indexGet_eq_some han, hsame]
  · intro hsame
    have hget : indexGet before = indexGet after := by
      ext key q
      rw [indexGet_eq_some hbn, indexGet_eq_some han, hsame]
    have hkeys : changedKeys before after = [] := by
      apply List.eq_nil_iff_forall_not_mem.mpr
      intro key hkey
      exact mem_changedKeys.mp hkey (congrFun hget key)
    rw [diffCells_eq_ok hb ha, hkeys]
    exact .nil
  · intro cells h key q
    rw [(isDiff_of_diffCells hb ha h).applied, indexGet_eq_some han]
  · intro cells cells' h h'
    exact (isDiff_of_diffCells hb ha h).reverses (isDiff_of_diffCells ha hb h')
  · intro cells h
    have htiny : etiny ≤ -(exposurePlaces : ℤ) := by decide
    refine ⟨diffSummary_ne_divisionByZero htiny fun c hc w hweight => ?_,
      fun summary => recomputed⟩
    have hall := (diffCells_eq_ok hb ha).mp h
    obtain ⟨key, -, hcell⟩ := exists_of_forall₂ (List.Forall₂.flip hall) hc
    rw [diffCell_weight hcell] at hweight
    exact hw.weigh_le hweight
  · intro hordinary
    have hcell : ∀ key, ∃ c, diffCell weights before after key = .ok c ∧
        ∀ pct, c.relChangePct = some pct → |pct| ≤ 10 ^ pctReach := fun key => diffCell_ok
      (fun q hq => hordinary key q (.inl ((indexGet_eq_some hbn).mp hq)))
      (fun q hq => hordinary key q (.inr ((indexGet_eq_some han).mp hq)))
    obtain ⟨cells, hcells⟩ := exists_mapM_ok (l := changedKeys before after)
      (f := diffCell weights before after) fun key _ => (hcell key).imp fun _ => And.left
    have hall := mapM_eq_ok.mp hcells
    refine ⟨cells, (diffCells_eq_ok hb ha).mpr hall, fun hwithin => diffSummary_ok ?_ ?_⟩
    · intro c hc
      obtain ⟨key, -, hok⟩ := exists_of_forall₂ (List.Forall₂.flip hall) hc
      obtain ⟨c', hok', hpct⟩ := hcell key
      rwa [Except.ok.inj (hok.symm.trans hok')]
    · intro c hc w hweight
      obtain ⟨key, -, hok⟩ := exists_of_forall₂ (List.Forall₂.flip hall) hc
      rw [diffCell_weight hok] at hweight
      exact ⟨hw.weigh_le hweight, hwithin.weigh_le hweight⟩

theorem ordinary_of_one_le {q : ℚ} (hone : 1 ≤ q) (hten : q ≤ 10) : Ordinary q := by
  have hle : ∀ a b : ℤ, a ≤ b → (10 : ℚ) ^ a ≤ 10 ^ b :=
    fun a b => zpow_le_zpow_right₀ (by norm_num)
  rw [Ordinary, abs_of_pos (by linarith)]
  constructor
  · have := hle 1 reach (by decide)
    rw [zpow_one] at this
    exact hten.trans this
  · have := hle (-reach) 0 (by decide)
    rw [zpow_zero] at this
    exact .inr (this.trans hone)

def rateRow (age rate : String) : CellRow := (Dict.empty.insert "age" age).insert "rel" rate

/-- One cell goes, one changes and one comes. -/
theorem rates_diffed :
    ∃ cells summary, diffCells [rateRow "young" "1.5", rateRow "old" "2"]
      [rateRow "old" "2.5", rateRow "oldest" "3"] (ageTable .string "young")
      (some fun _ => some (3 / 10 ^ exposurePlaces)) = .ok cells ∧
      diffSummary cells = .ok summary ∧ Recomputed cells summary := by
  have hall := diff_faithful [rateRow "young" "1.5", rateRow "old" "2"]
    [rateRow "old" "2.5", rateRow "oldest" "3"] (ageTable .string "young")
    (some fun _ => some (3 / 10 ^ exposurePlaces)) none
    [(["young"], 3 / (1 + 1)), (["old"], 1 + 1)] [(["old"], 5 / (1 + 1)), (["oldest"], 3)]
    (by with_unfolding_all decide) (by with_unfolding_all decide) (by decide) (by decide) (by
      rintro exposure ⟨⟩ key w ⟨⟩
      exact ⟨3, rfl⟩)
  obtain ⟨-, -, -, hsummary, hreturns⟩ := hall
  obtain ⟨cells, hcells, hsummarised⟩ := hreturns (by
    intro key q hq
    simp only [List.mem_cons, List.not_mem_nil, or_false, Prod.mk.injEq] at hq
    rcases hq with (⟨-, rfl⟩ | ⟨-, rfl⟩) | ⟨-, rfl⟩ | ⟨-, rfl⟩ <;>
      apply ordinary_of_one_le <;> norm_num)
  obtain ⟨summary, hsummarised⟩ := hsummarised (by
    rintro exposure ⟨⟩ key w ⟨⟩
    have hone : (1 : ℚ) ≤ 10 ^ reach := one_le_zpow₀ (by norm_num) (by decide)
    norm_num [exposurePlaces]
    linarith)
  exact ⟨cells, summary, hcells, hsummarised, (hsummary cells hcells).2 summary hsummarised⟩

end Results

end GiPricing.RateTables.Weighted
