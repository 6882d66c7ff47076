import GiPricing.Dislocation.Run
import GiPricing.Failure.Except
import GiPricing.Money.Arithmetic
import GiPricing.Order.Ranks
import GiPricing.RateTables.Operations
import GiPricing.Score.Positional
import Mathlib.Data.List.MinMax
import Mathlib.Order.Lattice

/-! # The approximation gate

A run reports nearest-rank quantiles of the absolute percentage changes of its policies, each written
once to six places upwards. The gate of a version in approximation mode reads the figure of its latest
run against the exact mode.
-/

namespace GiPricing.Dislocation

open Decimal Failure Ranks

/-! ## The figures -/

/-- `ABS_CHANGE_PCT_QUANTILE_KEYS` -/
def quantileKeys : List String := ["0.5", "0.9", "0.95", "0.99", "0.999", "1"]

/-- `Fraction(key)` -/
def keyFraction (key : String) : ℚ := ((parse key).bind Number.toRat?).getD 0

def sixPlaces : ℤ := 10 ^ 6

/-- `Fraction(abs(change) * 100, baseline)` -/
def absChangePct (r : FrameRow) : ℚ := (|r.change| * 100 : ℤ) / r.baseline

def sortedChanges (frame : List FrameRow) : List ℚ :=
  ((banded frame).map absChangePct).insertionSort (· ≤ ·)

/-- The figure in units of the sixth place: a ceiling division. -/
def scaledUp (value : ℚ) : ℤ := -(-value.num * sixPlaces / value.den)

/-- `f"{n:06d}"` -/
def sixDigits (n : ℕ) : List Char :=
  List.replicate (6 - (Nat.toDigits 10 n).length) '0' ++ Nat.toDigits 10 n

def figureText (value : ℚ) : String :=
  String.ofList (Nat.toDigits 10 (scaledUp value / sixPlaces).toNat ++
    '.' :: sixDigits (scaledUp value % sixPlaces).toNat)

example : figureText (1 / 3) = "0.333334" := by with_unfolding_all decide

abbrev Figures := List (String × Option String)

/-- `abs_change_pct_quantiles` -/
def absChangePctQuantiles (frame : List FrameRow) : Figures :=
  let changes := sortedChanges frame
  if changes = [] then quantileKeys.map fun key => (key, none)
  else quantileKeys.map fun key =>
    (key, some (figureText (changes.getD (⌈keyFraction key * changes.length⌉ - 1).toNat 0)))

/-! ## The gate -/

/-- `format(self.quantile.normalize(), "f")` -/
def quantileKey (quantile : ℚ) : String := RateTables.fixedPoint (Money.ambient quantile)

/-- The threshold of a policy: its quantile is one that a run reports. -/
structure ApproximationDeviation where
  quantile : ℚ
  maxAbsChangePct : ℚ
  key_ok : quantileKey quantile ∈ quantileKeys
  max_ok : 0 ≤ maxAbsChangePct

def defaultApproximationDeviation : ApproximationDeviation where
  quantile := 99 / 100
  maxAbsChangePct := 10
  key_ok := by with_unfolding_all decide
  max_ok := by norm_num

/-- What the gate reads of the `rating_version` entry of a policy. -/
structure PolicyEntry where
  approximationDeviation : Option ApproximationDeviation

def thresholdOf (entry : Option PolicyEntry) : ApproximationDeviation :=
  (entry.bind PolicyEntry.approximationDeviation).getD defaultApproximationDeviation

inductive ModelReferenceMode
  | exact
  | approximation
  deriving DecidableEq

/-- A stored run: what names it and, unless it was made before there were figures, its figures. -/
structure DislocationRunRow where
  id : ℕ
  workspaceId : ℕ
  candidateRef : String
  candidateBundleHash : String
  baselineRef : String
  createdAt : ℕ
  figures : Option Figures
  deriving DecidableEq

inductive EvidenceIncomplete
  | fidelity (detail : String)
  | noRun
  | invalidRun
  | noFigure (run : ℕ) (key : String)
  | aboveMaximum (key : String) (observed maximum : ℚ) (run : ℕ)

structure ApproximationCheck where
  dislocationRunId : ℕ
  quantile : String
  observedAbsChangePct : ℚ
  maxAbsChangePct : ℚ
  fidelityStatements : List String

/-- `latest_run_for`: by the time of creation, then by the id. -/
def latestRunFor (rows : List DislocationRunRow) (workspaceId : ℕ)
    (candidateRef candidateBundleHash baselineRef : String) : Option DislocationRunRow :=
  (rows.filter fun row => row.workspaceId = workspaceId ∧ row.candidateRef = candidateRef ∧
      row.candidateBundleHash = candidateBundleHash ∧ row.baselineRef = baselineRef).argmax
    fun row => toLex (row.createdAt, row.id)

/-- `DislocationRun.model_validate` as far as the figures go: all of the keys, and decimals. -/
def validateFigures (figures : Figures) : Except EvidenceIncomplete (List (String × Option ℚ)) := do
  ensure ((figures.map Prod.fst).toFinset = quantileKeys.toFinset) .invalidRun
  figures.mapM fun figure => match figure.2 with
    | none => .ok (figure.1, none)
    | some text => do
      let value ← require ((parse text).bind Number.toRat?) .invalidRun
      return (figure.1, some value)

def storedFigures : Option Figures → Except EvidenceIncomplete (Option (List (String × Option ℚ)))
  | none => .ok none
  | some figures => (validateFigures figures).map some

/-- `_approximation_gate` of the version `ref`. -/
def approximationGate (mode : ModelReferenceMode)
    (fidelity : Except EvidenceIncomplete (List String)) (entry : Option PolicyEntry)
    (rows : List DislocationRunRow) (workspaceId : ℕ) (ref : String) (bundleHash : Option String) :
    Except EvidenceIncomplete (Option ApproximationCheck) :=
  match mode with
  | .exact => .ok none
  | .approximation => do
    let statements ← fidelity
    let threshold := thresholdOf entry
    let key := quantileKey threshold.quantile
    let latest ← require
      (bundleHash.bind fun hash => latestRunFor rows workspaceId ref hash ref) .noRun
    let figures ← storedFigures latest.figures
    let observed ← require (figures.bind fun figures => (figures.lookup key).join)
      (.noFigure latest.id key)
    ensure (observed ≤ threshold.maxAbsChangePct)
      (.aboveMaximum key observed threshold.maxAbsChangePct latest.id)
    return some ⟨latest.id, key, observed, threshold.maxAbsChangePct, statements⟩

/-! ## A figure read back -/

theorem scaledUp_eq (value : ℚ) : scaledUp value = ⌈value * 10 ^ 6⌉ := by
  have hq : -(value * 10 ^ 6) = ((-value.num * sixPlaces : ℤ) : ℚ) / (value.den : ℤ) := by
    nth_rewrite 1 [← Rat.num_div_den value]
    rw [sixPlaces]
    push_cast
    ring
  rw [scaledUp, ← neg_neg ⌈value * 10 ^ 6⌉, ← Int.floor_neg, hq, Int.cast_natCast,
    Rat.floor_intCast_div_natCast]

theorem le_scaledUp (value : ℚ) : value ≤ scaledUp value / 10 ^ 6 := by
  rw [scaledUp_eq, le_div_iff₀ (by norm_num)]
  exact Int.le_ceil _

theorem scaledUp_lt (value : ℚ) : (scaledUp value : ℚ) / 10 ^ 6 < value + 1 / 10 ^ 6 := by
  rw [scaledUp_eq, div_lt_iff₀ (by norm_num), add_mul, one_div,
    inv_mul_cancel₀ (by norm_num : (10 : ℚ) ^ 6 ≠ 0)]
  exact Int.ceil_lt_add_one _

theorem scaledUp_mono {value value' : ℚ} (h : value ≤ value') : scaledUp value ≤ scaledUp value' := by
  rw [scaledUp_eq, scaledUp_eq]
  exact Int.ceil_mono (by linarith)

theorem asciiDigit_of_mem_sixDigits {n : ℕ} {c : Char} (h : c ∈ sixDigits n) : AsciiDigit c := by
  rcases List.mem_append.mp h with hc | hc
  · exact (List.eq_of_mem_replicate hc) ▸ asciiDigit_zero
  · exact asciiDigit_of_mem_toDigits hc

theorem length_sixDigits {n : ℕ} (h : n < 10 ^ 6) : (sixDigits n).length = 6 := by
  have := (Nat.length_toDigits_le_iff (b := 10) (k := 6) (by norm_num) (by norm_num)).mpr h
  rw [sixDigits, List.length_append, List.length_replicate]
  omega

/-- The text of a figure is its ceiling at the sixth place. -/
theorem parse_figureText {value : ℚ} (h : 0 ≤ value) :
    parse (figureText value) = some (.finite (scaledUp value / 10 ^ 6)) := by
  have hscaled : 0 ≤ scaledUp value := by
    rw [scaledUp_eq]
    exact Int.ceil_nonneg (by positivity)
  obtain ⟨n, hn⟩ := Int.eq_ofNat_of_zero_le hscaled
  have hwhole : (scaledUp value / sixPlaces).toNat = n / 10 ^ 6 := by
    rw [hn, sixPlaces]
    omega
  have hfraction : (scaledUp value % sixPlaces).toNat = n % 10 ^ 6 := by
    rw [hn, sixPlaces]
    omega
  have hlength := length_sixDigits (Nat.mod_lt n (by norm_num : 0 < 10 ^ 6))
  have hne : sixDigits (n % 10 ^ 6) ≠ [] := by
    rw [← List.length_pos_iff, hlength]
    norm_num
  have hwholeDigits : ∀ c ∈ Nat.toDigits 10 (n / 10 ^ 6), AsciiDigit c :=
    fun c => asciiDigit_of_mem_toDigits
  have hsixDigits : ∀ c ∈ sixDigits (n % 10 ^ 6), AsciiDigit c := fun c => asciiDigit_of_mem_sixDigits
  have hparse := parse_positional hwholeDigits hsixDigits Nat.toDigits_ne_nil False
  have hall : ∀ c ∈ Nat.toDigits 10 (n / 10 ^ 6) ++ sixDigits (n % 10 ^ 6), AsciiDigit c := by
    intro c hc
    rcases List.mem_append.mp hc with hc | hc
    · exact asciiDigit_of_mem_toDigits hc
    · exact asciiDigit_of_mem_sixDigits hc
  have hlast : Nat.ofDigitChars 10 (sixDigits (n % 10 ^ 6)) 0 = n % 10 ^ 6 := by
    rw [← digitsValue_eq_ofDigitChars fun c => asciiDigit_of_mem_sixDigits]
    exact digitsValue_padded _ _
  have hdigits : digitsValue (Nat.toDigits 10 (n / 10 ^ 6) ++ sixDigits (n % 10 ^ 6)) = n := by
    rw [digitsValue_eq_ofDigitChars hall, Nat.ofDigitChars_append, Nat.ofDigitChars_ten_toDigits,
      Nat.ofDigitChars_eq_ofDigitChars_zero, hlength, hlast]
    exact Nat.div_add_mod n (10 ^ 6)
  rw [figureText, hwhole, hfraction, hn]
  simp only [if_false, List.nil_append, if_neg hne, hdigits, hlength] at hparse
  rw [hparse]
  rfl

/-! ## The figures of a run -/

theorem keyFraction_bounds : ∀ key ∈ quantileKeys, 0 < keyFraction key ∧ keyFraction key ≤ 1 := by
  with_unfolding_all decide

theorem absChangePct_nonneg {frame : List FrameRow} {r : FrameRow} (h : r ∈ banded frame) :
    0 ≤ absChangePct r := by
  have hbaseline : 0 < r.baseline := of_decide_eq_true (List.mem_filter.mp h).2
  rw [absChangePct]
  positivity

/-- A figure as the decimal that its text is read as. -/
def Reads (figures : Figures) (key : String) (value : ℚ) : Prop :=
  ∃ text, figures.lookup key = some (some text) ∧ parse text = some (.finite value)

theorem lookup_map {β : Type} {keys : List String} {f : String → β} {key : String} (h : key ∈ keys) :
    (keys.map fun k => (k, f k)).lookup key = some (f key) := by
  induction keys with
  | nil => cases h
  | cons k keys ih =>
    rw [List.map_cons, List.lookup_cons]
    by_cases hk : key = k
    · subst hk
      simp
    · have hbeq : (key == k) = false := by simpa using hk
      rw [hbeq]
      exact ih ((List.mem_cons.mp h).resolve_left hk)

/-- The figure at a key is the element at the rank of the key, taken up to the sixth place. -/
theorem reads_iff {frame : List FrameRow} {key : String} {value : ℚ} (hne : banded frame ≠ [])
    (hkey : key ∈ quantileKeys) : Reads (absChangePctQuantiles frame) key value ↔
      ∃ quantile, NearestRank (keyFraction key) ((banded frame).map absChangePct) quantile ∧
        value = scaledUp quantile / 10 ^ 6 := by
  obtain ⟨hpos, hone⟩ := keyFraction_bounds key hkey
  set changes := sortedChanges frame with hchanges
  have hperm : changes.Perm ((banded frame).map absChangePct) := List.perm_insertionSort _ _
  have hsorted : changes.SortedLE := List.sortedLE_insertionSort
  have hlength : 0 < changes.length := by
    rw [hperm.length_eq, List.length_map]
    exact List.length_pos_iff.mpr hne
  have hrank := rank_lt hpos hone hlength
  have hlookup : (absChangePctQuantiles frame).lookup key =
      some (some (figureText changes[rank (keyFraction key) changes.length])) := by
    rw [absChangePctQuantiles, if_neg (List.length_pos_iff.mp hlength), lookup_map hkey,
      ← hchanges, ← rank, List.getD_eq_getElem _ _ hrank]
  have hnearest := (nearestRank_getElem hsorted hpos hrank).perm hperm
  have hnonneg : 0 ≤ changes[rank (keyFraction key) changes.length] := by
    obtain ⟨r, hr, heq⟩ := List.mem_map.mp hnearest.1
    rw [← heq]
    exact absChangePct_nonneg hr
  constructor
  · rintro ⟨text, htext, hparse⟩
    rw [hlookup, Option.some.injEq, Option.some.injEq] at htext
    rw [← htext, parse_figureText hnonneg, Option.some.injEq, Number.finite.injEq] at hparse
    exact ⟨_, hnearest, hparse.symm⟩
  · rintro ⟨quantile, hquantile, rfl⟩
    rw [← hnearest.unique hquantile]
    exact ⟨_, hlookup, parse_figureText hnonneg⟩

theorem quantiles_perm {frame frame' : List FrameRow} (h : frame.Perm frame') :
    absChangePctQuantiles frame = absChangePctQuantiles frame' := by
  have hchanges : sortedChanges frame = sortedChanges frame' := by
    apply List.Perm.eq_of_sortedLE List.sortedLE_insertionSort List.sortedLE_insertionSort
    have hbanded : (banded frame).Perm (banded frame') := (h.filter _).filter _
    exact (List.perm_insertionSort _ _).trans
      ((hbanded.map _).trans (List.perm_insertionSort _ _).symm)
  rw [absChangePctQuantiles, absChangePctQuantiles, hchanges]

/-! ## The run that the gate reads -/

/-- What is validated at a key is what its text is read as. -/
theorem lookup_validateFigures {figures : Figures} {values : List (String × Option ℚ)} {key : String}
    {value : ℚ} (h : validateFigures figures = .ok values) (hvalue : values.lookup key = some (some value)) :
    Reads figures key value := by
  have hall := mapM_eq_ok.mp (ensure_bind_eq_ok.mp h).2
  clear h
  induction hall with
  | nil => cases hvalue
  | @cons figure entry figures values hfigure hall ih =>
    obtain ⟨k, text⟩ := figure
    have hentry : entry.1 = k ∧ (entry.2 = none ∨ ∃ t v, text = some t ∧ entry.2 = some v ∧
        parse t = some (.finite v)) := by
      cases text with
      | none =>
        obtain rfl := Except.ok.inj hfigure
        exact ⟨rfl, Or.inl rfl⟩
      | some t =>
        obtain ⟨v, hv, hentry⟩ := require_bind_eq_ok.mp hfigure
        obtain rfl := pure_eq_ok.mp hentry
        obtain ⟨n, hn, hnv⟩ := Option.bind_eq_some_iff.mp hv
        cases n with
        | finite q =>
          obtain rfl := Option.some.inj hnv
          exact ⟨rfl, Or.inr ⟨t, q, rfl, rfl, hn⟩⟩
        | infinite _ => cases hnv
        | nan _ => cases hnv
    obtain ⟨k', entryValue⟩ := entry
    obtain ⟨rfl, hcase⟩ := hentry
    rw [List.lookup_cons] at hvalue
    by_cases hk : key = k'
    · subst hk
      rw [beq_self_eq_true] at hvalue
      obtain rfl := Option.some.inj hvalue
      obtain hnone | ⟨t, v, rfl, hv, hparse⟩ := hcase
      · cases hnone
      · obtain rfl := Option.some.inj hv
        exact ⟨t, by rw [List.lookup_cons, beq_self_eq_true], hparse⟩
    · have hbeq : (key == k') = false := by simpa using hk
      rw [hbeq] at hvalue
      obtain ⟨t, ht, hparse⟩ := ih hvalue
      exact ⟨t, by rw [List.lookup_cons, hbeq]; exact ht, hparse⟩

theorem latestRunFor_mem {rows : List DislocationRunRow} {workspaceId : ℕ}
    {candidateRef hash baselineRef : String} {row : DislocationRunRow}
    (h : latestRunFor rows workspaceId candidateRef hash baselineRef = some row) : row ∈ rows :=
  List.mem_of_mem_filter (List.argmax_mem h)

theorem approximationGate_accepts {fidelity : Except EvidenceIncomplete (List String)}
    {entry : Option PolicyEntry} {rows : List DislocationRunRow} {workspaceId : ℕ} {ref : String}
    {bundleHash : Option String} {check : Option ApproximationCheck}
    (h : approximationGate .approximation fidelity entry rows workspaceId ref bundleHash = .ok check) :
    ∃ row ∈ rows, ∃ hash, bundleHash = some hash ∧
      latestRunFor rows workspaceId ref hash ref = some row ∧
        ∃ figures observed, row.figures = some figures ∧
          Reads figures (quantileKey (thresholdOf entry).quantile) observed ∧
            observed ≤ (thresholdOf entry).maxAbsChangePct := by
  obtain ⟨statements, -, h⟩ := bind_eq_ok.mp h
  obtain ⟨row, hrow, h⟩ := require_bind_eq_ok.mp h
  obtain ⟨figures, hfigures, h⟩ := bind_eq_ok.mp h
  obtain ⟨observed, hobserved, h⟩ := require_bind_eq_ok.mp h
  obtain ⟨hmax, -⟩ := ensure_bind_eq_ok.mp h
  obtain ⟨hash, hhash, hlatest⟩ := Option.bind_eq_some_iff.mp hrow
  obtain ⟨values, rfl, hjoin⟩ := Option.bind_eq_some_iff.mp hobserved
  cases hstored : row.figures with
  | none =>
    rw [hstored] at hfigures
    cases hfigures
  | some stored =>
    rw [hstored] at hfigures
    obtain ⟨values', hvalidate, hvalues⟩ := map_eq_ok.mp hfigures
    obtain rfl := Option.some.inj hvalues
    have hlookup := Option.join_eq_some_iff.mp hjoin
    exact ⟨row, latestRunFor_mem hlatest, hash, hhash, hlatest, stored, observed, hstored,
      lookup_validateFigures hvalidate hlookup, hmax⟩

section Results

/-- No figure of a run is below the quantile it stands for, by a millionth above at the most, and a
version passes the gate on no run whose quantile is above the maximum. -/
theorem quantiles_never_understate (frame : List FrameRow) (hne : banded frame ≠ []) :
    (∀ key ∈ quantileKeys, ∃ value quantile, Reads (absChangePctQuantiles frame) key value ∧
      NearestRank (keyFraction key) ((banded frame).map absChangePct) quantile ∧
        quantile ≤ value ∧ value < quantile + 1 / 10 ^ 6) ∧
    (∀ key ∈ quantileKeys, ∀ key' ∈ quantileKeys, keyFraction key ≤ keyFraction key' →
      ∀ value value', Reads (absChangePctQuantiles frame) key value →
        Reads (absChangePctQuantiles frame) key' value' → value ≤ value') ∧
    (∀ value, Reads (absChangePctQuantiles frame) "1" value →
      ∀ r ∈ banded frame, absChangePct r ≤ value) ∧
    (∀ frame', frame.Perm frame' → absChangePctQuantiles frame' = absChangePctQuantiles frame) ∧
    ∀ fidelity entry rows workspaceId ref bundleHash check,
      approximationGate .approximation fidelity entry rows workspaceId ref bundleHash = .ok check →
        ∃ row ∈ rows, ∃ hash, bundleHash = some hash ∧
          latestRunFor rows workspaceId ref hash ref = some row ∧
            (row.figures = some (absChangePctQuantiles frame) →
              ∃ quantile, NearestRank (keyFraction (quantileKey (thresholdOf entry).quantile))
                ((banded frame).map absChangePct) quantile ∧
                  quantile ≤ (thresholdOf entry).maxAbsChangePct) := by
  refine ⟨?_, ?_, ?_, fun frame' h => (quantiles_perm h).symm, ?_⟩
  · intro key hkey
    obtain ⟨hpos, hone⟩ := keyFraction_bounds key hkey
    have hlength : 0 < (sortedChanges frame).length := by
      rw [sortedChanges, List.length_insertionSort, List.length_map]
      exact List.length_pos_iff.mpr hne
    have hnearest := (nearestRank_getElem List.sortedLE_insertionSort hpos
      (rank_lt hpos hone hlength)).perm (List.perm_insertionSort _ _)
    exact ⟨_, _, (reads_iff hne hkey).mpr ⟨_, hnearest, rfl⟩, hnearest, le_scaledUp _, scaledUp_lt _⟩
  · intro key hkey key' hkey' hle value value' hvalue hvalue'
    obtain ⟨quantile, hquantile, rfl⟩ := (reads_iff hne hkey).mp hvalue
    obtain ⟨quantile', hquantile', rfl⟩ := (reads_iff hne hkey').mp hvalue'
    have hscaled := scaledUp_mono (hquantile.mono hle hquantile')
    gcongr
  · intro value hvalue r hr
    obtain ⟨quantile, hquantile, rfl⟩ := (reads_iff hne (by decide)).mp hvalue
    have hone : keyFraction "1" = 1 := by with_unfolding_all decide
    rw [hone] at hquantile
    exact (hquantile.le_of_one (List.mem_map_of_mem hr)).trans (le_scaledUp _)
  · intro fidelity entry rows workspaceId ref bundleHash check hcheck
    obtain ⟨row, hrow, hash, hhash, hlatest, figures, observed, hfigures, hreads, hmax⟩ :=
      approximationGate_accepts hcheck
    refine ⟨row, hrow, hash, hhash, hlatest, fun hframe => ?_⟩
    obtain rfl := Option.some.inj (hfigures.symm.trans hframe)
    obtain ⟨quantile, hquantile, rfl⟩ := (reads_iff hne (thresholdOf entry).key_ok).mp hreads
    exact ⟨quantile, hquantile, (le_scaledUp _).trans hmax⟩

def quotedPolicy (quoteId : String) (baseline candidate : ℤ) : FrameRow where
  quoteId := quoteId
  baselineOutcome := .quoted
  candidateOutcome := .quoted
  baselineMinor := some baseline
  candidateMinor := some candidate
  changeMinor := some (candidate - baseline)
  baselineErrorCode := none
  candidateErrorCode := none
  originRung := none
  exposureYears := 1
  columns := []

/-- A third is written upwards. -/
theorem third_written_up :
    absChangePctQuantiles [quotedPolicy "a" 30000 40000, quotedPolicy "b" 10000 11000] =
        [("0.5", some "10.000000"), ("0.9", some "33.333334"), ("0.95", some "33.333334"),
          ("0.99", some "33.333334"), ("0.999", some "33.333334"), ("1", some "33.333334")] ∧
      ∃ value quantile, Reads (absChangePctQuantiles [quotedPolicy "a" 30000 40000,
          quotedPolicy "b" 10000 11000]) "0.9" value ∧
        NearestRank (keyFraction "0.9") [100 / 3, 10] quantile ∧
          quantile ≤ value ∧ value < quantile + 1 / 10 ^ 6 := by
  refine ⟨by with_unfolding_all decide, ?_⟩
  have hchanges : (banded [quotedPolicy "a" 30000 40000, quotedPolicy "b" 10000 11000]).map
      absChangePct = [100 / 3, 10] := by with_unfolding_all decide
  have hall := quantiles_never_understate
    [quotedPolicy "a" 30000 40000, quotedPolicy "b" 10000 11000] (by decide)
  rw [hchanges] at hall
  exact hall.1 "0.9" (by decide)

end Results

end GiPricing.Dislocation
