import GiPricing.Money.Range
import GiPricing.Order.Pieces

/-! # Exploding a period

A row of exposure divided at the boundaries inside its period. Each fragment but the last has its
share by days, rounded to six places, and the last one has the rest.
-/

namespace GiPricing.Explode

open Decimal Failure Money Pieces

/-- A row: its period in days, its exposure, and its other columns. -/
structure Record (ι : Type) where
  start : ℤ
  stop : ℤ
  exposure : ℚ
  others : ι
  deriving DecidableEq

variable {ι : Type}

inductive RecipeError
  | arithmetic (e : MoneyError)
  | totalChanged (before after : ℚ)
  deriving DecidableEq

def sixPlaces (q : ℚ) : ℚ := roundInt .halfEven (q * 10 ^ 6) / 10 ^ 6

/-- `quantize(Decimal("0.000001"))`. -/
def quantize (q : ℚ) : Except MoneyError ℚ := do
  ensure (|roundInt .halfEven (q * 10 ^ 6)| < 10 ^ Money.prec) .invalidOperation
  return sixPlaces q

/-- The rounded share of a fragment that is not the last. -/
def shareOf (exposure : ℚ) (days span : ℤ) : Except MoneyError ℚ := do
  if span = 0 then return 0
  else
    let product ← fix (exposure * days)
    let quotient ← fix (product / span)
    quantize quotient

section Explode

/- The number that a float shows, which is made of a decimal. -/
variable (shown : ℚ → ℚ)

/-- The fragments from a day on, where some exposure is allocated. -/
def fragments (r : Record ι) (span : ℤ) :
    ℚ → ℤ → List ℤ → Except MoneyError (List (Record ι))
  | _, _, [] => .ok []
  -- the rest, so that the fragments sum to the exposure
  | allocated, start, [stop] => do
    let share ← fix (r.exposure - allocated)
    return [{ r with start := start, stop := stop, exposure := shown share }]
  | allocated, start, stop :: next :: edges => do
    let share ← shareOf r.exposure (stop - start) span
    let allocated ← fix (allocated + share)
    let rest ← fragments r span allocated stop (next :: edges)
    return { r with start := start, stop := stop, exposure := shown share } :: rest

variable (boundaries : List ℤ)

def cuts (r : Record ι) : List ℤ :=
  (boundaries.filter fun b => r.start < b ∧ b < r.stop).mergeSort fun a b => decide (a ≤ b)

def explodeRecord (r : Record ι) : Except MoneyError (List (Record ι)) :=
  if cuts boundaries r = [] then .ok [r]
  else fragments shown r (r.stop - r.start) 0 r.start (cuts boundaries r ++ [r.stop])

/-- `decimal_sum`. -/
def decimalSum (frame : List (Record ι)) : Except MoneyError ℚ := do
  let total ← (frame.map Record.exposure).foldlM (fun total q => fix (total + q)) 0
  quantize total

/-- `explode_period`. -/
def explodePeriod (frame : List (Record ι)) : Except RecipeError (List (Record ι)) :=
  if frame.isEmpty then .ok frame
  else do
    let before ← (decimalSum frame).mapError .arithmetic
    let parts ← (frame.mapM (explodeRecord shown boundaries)).mapError .arithmetic
    let after ← (decimalSum parts.flatten).mapError .arithmetic
    ensure (before = after) (.totalChanged before after)
    return parts.flatten

/-! ## What is conserved -/

/-- Fragments that divide the period of a row and its exposure. -/
structure Exploded (r : Record ι) (parts : List (Record ι)) : Prop where
  nonempty : ∀ p ∈ parts, p.start < p.stop
  consecutive : parts.IsChain fun p q => p.stop = q.start
  disjoint : parts.Pairwise fun p q => p.stop ≤ q.start
  covers : ∀ day, (∃ p ∈ parts, p.start ≤ day ∧ day < p.stop) ↔ r.start ≤ day ∧ day < r.stop
  nonneg : ∀ p ∈ parts, 0 ≤ p.exposure
  total : (parts.map Record.exposure).sum = r.exposure

/-- The rounded shares of all fragments but the last. -/
def allocatedTo (exposure : ℚ) (span : ℤ) : ℤ → List ℤ → ℚ
  | _, [] | _, [_] => 0
  | start, stop :: next :: edges =>
    sixPlaces (ambient (ambient (exposure * (stop - start : ℤ)) / span)) +
      allocatedTo exposure span stop (next :: edges)

/-- Nothing is lost but in the rounding of the shares: sums and the rest have at most 28 digits, and
a float shows the shares as they are. -/
def Kept (exposure : ℚ) (span : ℤ) : ℚ → ℤ → List ℤ → Prop
  | _, _, [] => True
  | allocated, _, [_] => fix (exposure - allocated) = .ok (exposure - allocated) ∧
    shown (exposure - allocated) = exposure - allocated
  | allocated, start, stop :: next :: edges => ∃ share,
    shareOf exposure (stop - start) span = .ok share ∧ shown share = share ∧
      fix (allocated + share) = .ok (allocated + share) ∧
      Kept exposure span (allocated + share) stop (next :: edges)

/-- A row whose boundaries are distinct, and whose rounded shares leave something or nothing. -/
def Divides (r : Record ι) : Prop :=
  (cuts boundaries r).Nodup ∧ 0 ≤ r.exposure ∧
    allocatedTo r.exposure (r.stop - r.start) r.start (cuts boundaries r ++ [r.stop]) ≤ r.exposure

instance (r : Record ι) : Decidable (Divides boundaries r) := inferInstanceAs (Decidable (_ ∧ _))

def KeptRow (r : Record ι) : Prop :=
  fix r.exposure = .ok r.exposure ∧
    |roundInt .halfEven (r.exposure * 10 ^ 6)| < 10 ^ Money.prec ∧
    Kept shown r.exposure (r.stop - r.start) 0 r.start (cuts boundaries r ++ [r.stop])

end Explode

section Spec

variable {shown : ℚ → ℚ} {boundaries : List ℤ} {r : Record ι} {span start : ℤ} {allocated : ℚ}
  {edges : List ℤ} {parts : List (Record ι)}

theorem sixPlaces_nonneg {q : ℚ} (h : 0 ≤ q) : 0 ≤ sixPlaces q :=
  div_nonneg (by exact_mod_cast roundInt_nonneg (by positivity)) (by positivity)

theorem ambient_nonneg {q : ℚ} (h : 0 ≤ q) : 0 ≤ ambient q := toGrid_nonneg h

theorem shareOf_eq {exposure share : ℚ} {days : ℤ} (hspan : span ≠ 0)
    (h : shareOf exposure days span = .ok share) :
    share = sixPlaces (ambient (ambient (exposure * days) / span)) := by
  rw [shareOf, if_neg hspan] at h
  simp only [bind_eq_ok, fix_eq_ok, quantize, ensure_eq_ok, pure_eq_ok] at h
  obtain ⟨product, ⟨-, rfl⟩, quotient, ⟨-, rfl⟩, done, -, rfl⟩ := h
  rfl

def Record.period (r : Record ι) : ℤ × ℤ := (r.start, r.stop)

/-- Fragments lie between the edges and sum to what is not yet allocated. The induction is on the
edges, for every sum allocated before. -/
theorem fragments_spec (hk : Kept shown r.exposure span allocated start edges) :
    ∃ parts, fragments shown r span allocated start edges = .ok parts ∧
      parts.map Record.period = pieces start edges ∧
      (edges ≠ [] → (parts.map Record.exposure).sum = r.exposure - allocated) ∧
      (span ≠ 0 → 0 < span → 0 ≤ r.exposure → (start :: edges).IsChain (· ≤ ·) → edges ≠ [] →
        ((∀ p ∈ parts, 0 ≤ p.exposure) ↔
          allocated + allocatedTo r.exposure span start edges ≤ r.exposure)) := by
  induction edges generalizing allocated start with
  | nil => exact ⟨[], rfl, rfl, fun h => absurd rfl h, fun _ _ _ _ h => absurd rfl h⟩
  | cons stop edges ih =>
    cases edges with
    | nil =>
      obtain ⟨hfix, hshown⟩ := hk
      refine ⟨_, bind_eq_ok.mpr ⟨_, hfix, rfl⟩, rfl, fun _ => ?_, fun _ _ _ _ _ => ?_⟩
      · simp [hshown]
      · simp [hshown, allocatedTo]
    | cons next edges =>
      obtain ⟨share, hshare, hshown, hfix, hrest⟩ := hk
      obtain ⟨parts, hparts, hperiods, hsum, hnonneg⟩ := ih hrest
      refine ⟨_, bind_eq_ok.mpr ⟨share, hshare, bind_eq_ok.mpr ⟨_, hfix, bind_eq_ok.mpr
        ⟨parts, hparts, rfl⟩⟩⟩, ?_, fun _ => ?_, fun hspan hpos he hchain _ => ?_⟩
      · rw [List.map_cons, hperiods]
        rfl
      · rw [List.map_cons, List.sum_cons, hsum (List.cons_ne_nil _ _), hshown]
        ring
      · rw [List.isChain_cons_cons] at hchain
        have hvalue := shareOf_eq hspan hshare
        have hdays : (0 : ℚ) ≤ (stop - start : ℤ) := by exact_mod_cast sub_nonneg.mpr hchain.1
        have hspan' : (0 : ℚ) < span := by exact_mod_cast hpos
        have hshare0 : 0 ≤ share := by
          rw [hvalue]
          apply sixPlaces_nonneg
          apply ambient_nonneg
          exact div_nonneg (ambient_nonneg (mul_nonneg he hdays)) hspan'.le
        rw [List.forall_mem_cons, hshown, allocatedTo, ← hvalue, ← add_assoc,
          hnonneg hspan hpos he hchain.2 (List.cons_ne_nil _ _)]
        exact and_iff_right hshare0

theorem cuts_inside : ∀ b ∈ cuts boundaries r, r.start < b ∧ b < r.stop := by
  intro b hb
  rw [cuts, List.mem_mergeSort, List.mem_filter, decide_eq_true_iff] at hb
  exact hb.2

theorem cuts_sorted : (cuts boundaries r).Pairwise (· ≤ ·) :=
  List.pairwise_mergeSort' (· ≤ ·) _

/-- The edges of a period go up strictly where no boundary inside it repeats. -/
theorem edges_increase (h : r.start < r.stop) :
    (r.start :: (cuts boundaries r ++ [r.stop])).IsChain (· < ·) ↔ (cuts boundaries r).Nodup := by
  rw [List.isChain_iff_pairwise]
  constructor
  · intro hp
    have := (List.pairwise_append.mp (List.pairwise_cons.mp hp).2).1
    exact this.imp ne_of_lt
  · intro hn
    have hlt : (cuts boundaries r).Pairwise (· < ·) :=
      cuts_sorted.imp₂ (fun a b hle hne => lt_of_le_of_ne hle hne) hn
    apply List.pairwise_cons.mpr
    constructor
    · intro b hb
      rcases List.mem_append.mp hb with hb | hb
      · exact (cuts_inside b hb).1
      · rw [List.mem_singleton.mp hb]
        exact h
    · apply List.pairwise_append.mpr
      refine ⟨hlt, List.pairwise_singleton _ _, ?_⟩
      intro a ha b hb
      rw [List.mem_singleton.mp hb]
      exact (cuts_inside a ha).2

theorem explodeRecord_eq (hk : KeptRow shown boundaries r) : explodeRecord shown boundaries r =
    fragments shown r (r.stop - r.start) 0 r.start (cuts boundaries r ++ [r.stop]) := by
  rw [explodeRecord]
  split_ifs with hcuts
  · obtain ⟨-, -, hkept⟩ := hk
    rw [hcuts] at hkept ⊢
    obtain ⟨hfix, hshown⟩ := hkept
    rw [sub_zero] at hfix hshown
    simp only [List.nil_append, fragments, sub_zero, hfix, hshown, bind, Except.bind, pure,
      Except.pure]
  · rfl

theorem exploded_of_spec
    (hperiods : parts.map Record.period = pieces r.start (cuts boundaries r ++ [r.stop]))
    (hsum : (parts.map Record.exposure).sum = r.exposure)
    (hincrease : (r.start :: (cuts boundaries r ++ [r.stop])).IsChain (· < ·))
    (hnonneg : ∀ p ∈ parts, 0 ≤ p.exposure) : Exploded r parts where
  nonempty := by
    intro p hp
    exact pieces_nonempty_iff.mpr hincrease _ (hperiods ▸ List.mem_map_of_mem hp)
  consecutive := by
    have hchain : (pieces r.start (cuts boundaries r ++ [r.stop])).IsChain fun p q => p.2 = q.1 :=
      pieces_consecutive
    rwa [← hperiods, List.isChain_map] at hchain
  disjoint := by
    have := pieces_apart (hincrease.imp fun _ _ => le_of_lt)
    rw [← hperiods, List.pairwise_map] at this
    exact this
  covers := by
    intro day
    have hexists : (∃ p ∈ parts, p.start ≤ day ∧ day < p.stop) ↔
        ∃ q ∈ parts.map Record.period, q.1 ≤ day ∧ day < q.2 := by
      simp only [List.mem_map, exists_exists_and_eq_and]
      rfl
    rw [hexists, hperiods]
    have hle := hincrease.imp fun _ _ => le_of_lt
    revert hle
    cases hcuts : cuts boundaries r ++ [r.stop] with
    | nil => exact absurd hcuts (List.append_ne_nil_of_right_ne_nil _ (List.cons_ne_nil _ _))
    | cons b edges =>
      intro hle
      have hlast : (b :: edges).getLast (List.cons_ne_nil b edges) = r.stop := by
        simp only [← hcuts, List.getLast_append_singleton]
      rw [exists_piece_iff hle, hlast]
  nonneg := hnonneg
  total := hsum

/-- The fragments of a row divide its period and its exposure exactly where its boundaries are
distinct and its rounded shares do not exceed it. -/
theorem exploded_iff (hk : KeptRow shown boundaries r) (h : r.start < r.stop)
    (hparts : explodeRecord shown boundaries r = .ok parts) :
    Exploded r parts ↔ Divides boundaries r := by
  rw [explodeRecord_eq hk] at hparts
  obtain ⟨parts', hparts', hperiods, hsum, hnonneg⟩ := fragments_spec hk.2.2
  obtain rfl := Except.ok.inj (hparts.symm.trans hparts')
  have hne : cuts boundaries r ++ [r.stop] ≠ [] :=
    List.append_ne_nil_of_right_ne_nil _ (List.cons_ne_nil _ _)
  have hspan : 0 < r.stop - r.start := sub_pos.mpr h
  rw [sub_zero] at hsum
  constructor
  · intro hexploded
    have hincrease : (r.start :: (cuts boundaries r ++ [r.stop])).IsChain (· < ·) := by
      rw [← pieces_nonempty_iff, ← hperiods]
      intro q hq
      obtain ⟨p, hp, rfl⟩ := List.mem_map.mp hq
      exact hexploded.nonempty p hp
    have he : 0 ≤ r.exposure := by
      rw [← hexploded.total]
      apply List.sum_nonneg
      intro q hq
      obtain ⟨p, hp, rfl⟩ := List.mem_map.mp hq
      exact hexploded.nonneg p hp
    have hle := (hnonneg hspan.ne' hspan he (hincrease.imp fun _ _ => le_of_lt) hne).mp
      hexploded.nonneg
    rw [zero_add] at hle
    exact ⟨(edges_increase h).mp hincrease, he, hle⟩
  · rintro ⟨hnodup, he, hle⟩
    have hincrease := (edges_increase h).mpr hnodup
    apply exploded_of_spec hperiods (hsum hne) hincrease
    apply (hnonneg hspan.ne' hspan he (hincrease.imp fun _ _ => le_of_lt) hne).mpr
    rw [zero_add]
    exact hle

theorem fragments_total (hk : Kept shown r.exposure span allocated start edges) (hne : edges ≠ [])
    (he : fix r.exposure = .ok r.exposure)
    (hparts : fragments shown r span allocated start edges = .ok parts) :
    (parts.map Record.exposure).foldlM (fun total q => fix (total + q)) allocated =
      .ok r.exposure := by
  induction edges generalizing allocated start parts with
  | nil => exact absurd rfl hne
  | cons stop edges ih =>
    cases edges with
    | nil =>
      obtain ⟨hfix, hshown⟩ := hk
      simp only [fragments, bind_eq_ok, hfix, pure_eq_ok, Except.ok.injEq, exists_eq_left',
        hshown] at hparts
      subst hparts
      simp only [List.map_cons, List.map_nil, List.foldlM_cons, List.foldlM_nil, bind_eq_ok,
        add_sub_cancel, he, pure_eq_ok, Except.ok.injEq, exists_eq_left']
    | cons next edges =>
      obtain ⟨share, hshare, hshown, hfix, hrest⟩ := hk
      simp only [fragments, bind_eq_ok, hshare, hfix, pure_eq_ok, Except.ok.injEq, exists_eq_left',
        hshown] at hparts
      obtain ⟨parts', hparts', rfl⟩ := hparts
      simp only [List.map_cons, List.foldlM_cons, bind_eq_ok, hfix, Except.ok.injEq,
        exists_eq_left']
      exact ih hrest (List.cons_ne_nil _ _) hparts'

theorem explodePeriod_singleton (hk : KeptRow shown boundaries r) :
    ∃ parts, explodeRecord shown boundaries r = .ok parts ∧
      explodePeriod shown boundaries [r] = .ok parts := by
  have hne : cuts boundaries r ++ [r.stop] ≠ [] :=
    List.append_ne_nil_of_right_ne_nil _ (List.cons_ne_nil _ _)
  obtain ⟨parts, hparts, -⟩ := fragments_spec hk.2.2
  have htotal := fragments_total hk.2.2 hne hk.1 hparts
  have hquantize : quantize r.exposure = .ok (sixPlaces r.exposure) :=
    ensure_bind_eq_ok.mpr ⟨hk.2.1, rfl⟩
  have hbefore : decimalSum [r] = .ok (sixPlaces r.exposure) := by
    simp only [decimalSum, List.map_cons, List.map_nil, List.foldlM_cons, List.foldlM_nil, zero_add,
      hk.1, bind_eq_ok, pure_eq_ok, Except.ok.injEq, exists_eq_left', hquantize]
  have hafter : decimalSum parts = .ok (sixPlaces r.exposure) := by
    simp only [decimalSum, bind_eq_ok, htotal, Except.ok.injEq, exists_eq_left', hquantize]
  rw [← explodeRecord_eq hk] at hparts
  refine ⟨parts, hparts, ?_⟩
  have hmap : [r].mapM (explodeRecord shown boundaries) = .ok [parts] :=
    mapM_eq_ok.mpr (.cons hparts .nil)
  simp only [explodePeriod, List.isEmpty_cons, Bool.false_eq_true, if_false, bind_eq_ok,
    mapError_eq_ok, pure_eq_ok]
  refine ⟨_, hbefore, _, hmap, _, ?_, ⟨⟩, ensure_eq_ok.mpr rfl, ?_⟩
  · simpa using hafter
  · simp

end Spec

/-! ## Results -/

/-- Where nothing is lost, an exploded row is divided into its period and its exposure exactly where
no boundary inside it repeats and its rounded shares do not exceed the exposure. -/
theorem explodePeriod_conserves_iff (shown : ℚ → ℚ) (boundaries : List ℤ)
    (frame : List (Record ι)) :
    (∀ out, explodePeriod shown boundaries frame = .ok out → ∃ parts, parts.flatten = out ∧
      List.Forall₂ (fun r ps => explodeRecord shown boundaries r = .ok ps ∧
        (r.start < r.stop → KeptRow shown boundaries r →
          (Exploded r ps ↔ Divides boundaries r))) frame parts) ∧
    ∀ r, frame = [r] → KeptRow shown boundaries r →
      ∃ out, explodePeriod shown boundaries frame = .ok out := by
  constructor
  · intro out hout
    have hmap : ∃ parts, parts.flatten = out ∧
        frame.mapM (explodeRecord shown boundaries) = .ok parts := by
      rw [explodePeriod] at hout
      split_ifs at hout with hempty
      · obtain rfl := Except.ok.inj hout
        rw [List.isEmpty_iff.mp hempty]
        exact ⟨[], rfl, rfl⟩
      · simp only [bind_eq_ok, mapError_eq_ok, pure_eq_ok] at hout
        obtain ⟨before, -, parts, hparts, after, -, done, -, hflatten⟩ := hout
        exact ⟨parts, hflatten, hparts⟩
    obtain ⟨parts, hflatten, hparts⟩ := hmap
    refine ⟨parts, hflatten, (mapM_eq_ok.mp hparts).imp fun r ps hps => ⟨hps, ?_⟩⟩
    exact fun hlt hk => exploded_iff hk hlt hps
  · rintro r rfl hk
    obtain ⟨parts, -, hparts⟩ := explodePeriod_singleton hk
    exact ⟨parts, hparts⟩

def fourDays : Record Unit := ⟨0, 4, 1, ()⟩

/-- A boundary inside the period divides it and its exposure. -/
theorem fourDays_divided : ∃ out, explodePeriod id [2] [fourDays] = .ok out ∧
    ∃ parts, parts.flatten = out ∧ List.Forall₂ Exploded [fourDays] parts := by
  have hall := explodePeriod_conserves_iff id [2] [fourDays]
  have hkept : KeptRow id [2] fourDays := by
    have hcuts : cuts [2] fourDays = [2] := by with_unfolding_all decide
    refine ⟨by decide +kernel, by with_unfolding_all decide, ?_⟩
    rw [hcuts]
    exact ⟨1 / (1 + 1), by decide +kernel, rfl, by decide +kernel, by decide +kernel, rfl⟩
  have hdivides : Divides [2] fourDays := by decide +kernel
  obtain ⟨out, hout⟩ := hall.2 fourDays rfl hkept
  obtain ⟨parts, hflatten, hparts⟩ := hall.1 out hout
  refine ⟨out, hout, parts, hflatten, ?_⟩
  obtain _ | ⟨⟨-, hexploded⟩, hrest⟩ := hparts
  exact .cons ((hexploded (by decide) hkept).mpr hdivides) (by cases hrest; exact .nil)

/-- A boundary that is given twice makes a fragment of no days. -/
theorem fourDays_emptyFragment :
    explodePeriod id [2, 2] [fourDays] =
        .ok [⟨0, 2, 1 / (1 + 1), ()⟩, ⟨2, 2, 0, ()⟩, ⟨2, 4, 1 / (1 + 1), ()⟩] ∧
      ¬ Exploded fourDays
        [⟨0, 2, 1 / (1 + 1), ()⟩, ⟨2, 2, 0, ()⟩, ⟨2, 4, 1 / (1 + 1), ()⟩] := by
  have hcuts : cuts [2, 2] fourDays = [2, 2] := List.mergeSort_of_pairwise (by decide)
  have hrecord : explodeRecord id [2, 2] fourDays =
      .ok [⟨0, 2, 1 / (1 + 1), ()⟩, ⟨2, 2, 0, ()⟩, ⟨2, 4, 1 / (1 + 1), ()⟩] := by
    rw [explodeRecord, hcuts]
    decide +kernel
  have hmap : [fourDays].mapM (explodeRecord id [2, 2]) = .ok [_] :=
    mapM_eq_ok.mpr (.cons hrecord .nil)
  constructor
  · rw [explodePeriod, hmap]
    decide +kernel
  · intro h
    exact absurd (h.nonempty ⟨2, 2, 0, ()⟩ (List.mem_cons_of_mem _ List.mem_cons_self)) (by decide)

end GiPricing.Explode
