import GiPricing.Relational.Joins

/-! # Claims and their exposure

Three checks link a claim table to an exposure table: one by the loss date, one by the key, and one by
both. A claim belongs to an exposure row of its key whose period its loss date lies in.
-/

namespace GiPricing.Validation

open Relational

/-- What a check reports: the rows that violate it and what it measured, or why it was skipped. -/
structure CheckOutcome where
  violating_rows : ℕ := 0
  measured : List (String × ℕ) := []
  detail : String := ""
  skip_reason : Option String := none
  deriving DecidableEq

def CheckOutcome.skipped (reason : String) : CheckOutcome := { skip_reason := some reason }

/-- A check that ran and counted no row. -/
def CheckOutcome.Passes (o : CheckOutcome) : Prop := o.skip_reason = none ∧ o.violating_rows = 0

instance (o : CheckOutcome) : Decidable o.Passes := inferInstanceAs (Decidable (_ ∧ _))

/-! ## The tables -/

/-- The claim table as a rule reads it, by the columns that its parameters name: `none` is a column
that is not there. -/
structure ClaimTable (C K D I : Type) where
  rows : List C
  link_key : Option (C → Option K)
  loss_date : Option (C → Option D)
  claim_key : Option (C → Option I)

structure ExposureTable (X K D : Type) where
  rows : List X
  link_key : Option (X → Option K)
  start : Option (X → Option D)
  stop : Option (X → Option D)

section Checks

variable {C X K D I : Type} [DecidableEq K] [DecidableEq I] [LinearOrder D]

/-- Both tables and the key of each. -/
def linked (claims : Option (ClaimTable C K D I)) (exposure : Option (ExposureTable X K D)) :
    Option (ClaimTable C K D I × ExposureTable X K D × (C → Option K) × (X → Option K)) := do
  let claims ← claims
  let exposure ← exposure
  let left ← claims.link_key
  let right ← exposure.link_key
  return (claims, exposure, left, right)

def noLinkedTables : CheckOutcome := .skipped "no linked claim and exposure tables"

/-- `_claim_date_in_exposure` -/
def claimDateInExposure (claims : Option (ClaimTable C K D I))
    (exposure : Option (ExposureTable X K D)) : CheckOutcome :=
  match linked claims exposure with
  | none => noLinkedTables
  | some (claims, exposure, left, right) =>
    match claims.loss_date, exposure.start, exposure.stop with
    | some loss, some start, some stop =>
      let joined := leftJoin left right claims.rows exposure.rows
      let offending := (keep (fun (a, b) =>
        .and (.isNotNull (loss a)) (.and (.isNotNull (b.bind start))
          (.or (.compare (· < ·) (loss a) (b.bind start))
            (.and (.isNotNull (b.bind stop)) (.compare (· ≥ ·) (loss a) (b.bind stop))))))
        joined).length
      { violating_rows := offending
        measured := [("violating_rows", offending), ("claims", claims.rows.length)]
        detail := s!"{offending} claim(s) fall outside their linked exposure period" }
    | _, _, _ => .skipped "date columns are absent"

/-- `_claim_linkage_complete` -/
def claimLinkageComplete (claims : Option (ClaimTable C K D I))
    (exposure : Option (ExposureTable X K D)) : CheckOutcome :=
  match linked claims exposure with
  | none => noLinkedTables
  | some (claims, exposure, left, right) =>
    let known := (exposure.rows.map right).dedup
    let joined := leftJoin left id claims.rows known
    let offending := (keep (fun p => .isNull p.2) joined).length
    let total := claims.rows.length
    { violating_rows := offending
      measured := [("unlinked_claims", offending), ("claims", total)]
      detail := s!"{offending} of {total} claim(s) link to no exposure row" }

/-- The rows that `_claim_not_multi_linked` groups: the period is tested where its columns are there. -/
def multiJoined (claims : ClaimTable C K D I) (exposure : ExposureTable X K D)
    (left : C → Option K) (right : X → Option K) : List (C × Option X) :=
  let joined := leftJoin left right claims.rows exposure.rows
  match claims.loss_date, exposure.start, exposure.stop with
  | some loss, some start, some stop =>
    keep (fun (a, b) => .or (.isNull (b.bind start))
      (.and (.compare (· ≥ ·) (loss a) (b.bind start))
        (.or (.isNull (b.bind stop)) (.compare (· < ·) (loss a) (b.bind stop))))) joined
  | _, _, _ => joined

/-- `_claim_not_multi_linked`: by the claim, or by the key where the claims have no column of their
own. -/
def claimNotMultiLinked (claims : Option (ClaimTable C K D I))
    (exposure : Option (ExposureTable X K D)) : CheckOutcome :=
  match linked claims exposure with
  | none => noLinkedTables
  | some (claims, exposure, left, right) =>
    let joined := multiJoined claims exposure left right
    let offending := match claims.claim_key with
      | some id => ((groupLengths (fun p => id p.1) joined).filter fun g => 1 < g.2).length
      | none => ((groupLengths (fun p => left p.1) joined).filter fun g => 1 < g.2).length
    { violating_rows := offending
      measured := [("multi_linked_claims", offending)]
      detail := s!"{offending} claim(s) link to more than one exposure row" }

end Checks

/-! ## What linkage is -/

/-- Claims with ids of their own and exposure periods, with a value in every column that links them. -/
structure Linkage (C X K D I : Type) where
  claims : List C
  exposure : List X
  claimKey : C → K
  loss : C → D
  claimId : C → I
  exposureKey : X → K
  start : X → D
  stop : X → D
  unique : (claims.map claimId).Nodup

namespace Linkage

variable {C X K D I : Type} [DecidableEq K] [DecidableEq I] [LinearOrder D]
  (L : Linkage C X K D I)

def claimTable : ClaimTable C K D I :=
  ⟨L.claims, some fun a => some (L.claimKey a), some fun a => some (L.loss a),
    some fun a => some (L.claimId a)⟩

def exposureTable : ExposureTable X K D :=
  ⟨L.exposure, some fun b => some (L.exposureKey b), some fun b => some (L.start b),
    some fun b => some (L.stop b)⟩

def ofKey (a : C) : List X := L.exposure.filter fun b => L.claimKey a = L.exposureKey b

/-- The loss date lies in the period, its end left out. -/
def Covers (a : C) (b : X) : Prop := L.start b ≤ L.loss a ∧ L.loss a < L.stop b

instance (a : C) (b : X) : Decidable (L.Covers a b) := inferInstanceAs (Decidable (_ ∧ _))

def covering (a : C) : List X := (L.ofKey a).filter (L.Covers a)

/-- The checks count what linkage says: the claims with exposure of their key and none that covers
them, those with no exposure of their key, and those that more than one row covers. Together they pass
exactly where each claim belongs to one row. -/
structure Decided : Prop where
  date_in_exposure : (claimDateInExposure (some L.claimTable) (some L.exposureTable)).violating_rows =
    L.claims.countP fun a => L.ofKey a ≠ [] ∧ L.covering a = []
  linkage_complete : (claimLinkageComplete (some L.claimTable) (some L.exposureTable)).violating_rows =
    L.claims.countP fun a => L.ofKey a = []
  not_multi_linked : (claimNotMultiLinked (some L.claimTable) (some L.exposureTable)).violating_rows =
    L.claims.countP fun a => 1 < (L.covering a).length
  pass : ((claimDateInExposure (some L.claimTable) (some L.exposureTable)).Passes ∧
      (claimLinkageComplete (some L.claimTable) (some L.exposureTable)).Passes ∧
      (claimNotMultiLinked (some L.claimTable) (some L.exposureTable)).Passes) ↔
    ∀ a ∈ L.claims, (L.covering a).length = 1

/-! ## What the checks count -/

variable {L} {a : C} {b : X}

omit [DecidableEq I] [LinearOrder D] in
theorem partners_eq : partners (fun a => some (L.claimKey a)) (fun b => some (L.exposureKey b))
    L.exposure a = L.ofKey a := by
  simp [partners, ofKey]

omit [DecidableEq I] in
theorem length_ofKey : (L.ofKey a).length =
    (L.covering a).length + (L.ofKey a).countP fun b => ¬ L.Covers a b := by
  rw [covering, ← List.countP_eq_length_filter]
  simpa using List.length_eq_countP_add_countP (fun b => decide (L.Covers a b)) (l := L.ofKey a)

omit [DecidableEq I] in
theorem dates_eq :
    (claimDateInExposure (some L.claimTable) (some L.exposureTable)).violating_rows =
      (L.claims.map fun a => (L.ofKey a).countP fun b => ¬ L.Covers a b).sum := by
  simp only [claimDateInExposure, linked, claimTable, exposureTable, Option.bind_eq_bind,
    Option.bind_some, Option.pure_def, keep, ← List.countP_eq_length_filter]
  rw [countP_leftJoin]
  congr 1
  apply List.map_congr_left
  intro a _
  rw [partners_eq]
  split_ifs with h
  · simp [h]
  · apply List.countP_congr
    intro b _
    simp [Covers, imp_iff_not_or]

omit [DecidableEq I] [LinearOrder D] in
theorem complete_eq :
    (claimLinkageComplete (some L.claimTable) (some L.exposureTable)).violating_rows =
      L.claims.countP fun a => L.ofKey a = [] := by
  have hpartners : ∀ a, partners (fun a => some (L.claimKey a)) id
      (L.exposure.map fun b => some (L.exposureKey b)).dedup a = [] ↔ L.ofKey a = [] := by
    intro a
    rw [partners_eq_nil, ofKey, List.filter_eq_nil_iff]
    simp
  simp only [claimLinkageComplete, linked, claimTable, exposureTable, Option.bind_eq_bind,
    Option.bind_some, Option.pure_def, keep, ← List.countP_eq_length_filter]
  rw [countP_leftJoin, ← sum_ite_eq_countP]
  congr 1
  apply List.map_congr_left
  intro a _
  by_cases h : L.ofKey a = []
  · rw [if_pos ((hpartners a).mpr h), if_pos h]
    rfl
  · rw [if_neg (mt (hpartners a).mp h), if_neg h, List.countP_eq_zero]
    simp

theorem count_multiJoined (ha : a ∈ L.claims) :
    (multiJoined L.claimTable L.exposureTable (fun a => some (L.claimKey a)) fun b =>
      some (L.exposureKey b)).countP (fun p => some (L.claimId p.1) = some (L.claimId a)) =
        if L.ofKey a = [] then 1 else (L.covering a).length := by
  simp only [multiJoined, claimTable, exposureTable, keep, List.countP_filter]
  rw [countP_leftJoin, sum_map_eq_single L.unique ha]
  · rw [partners_eq]
    split_ifs with h
    · simp
    · rw [covering, ← List.countP_eq_length_filter]
      apply List.countP_congr
      intro b _
      have hcovers : decide (L.Covers a b) = true ↔ L.start b ≤ L.loss a ∧ L.loss a < L.stop b :=
        decide_eq_true_iff
      rw [hcovers]
      simp
  · intro c _ hne
    split_ifs
    · simp [hne]
    · rw [List.countP_eq_zero]
      simp [hne]

omit [DecidableEq I] in
theorem mem_multiJoined {p : C × Option X} (hp : p ∈ multiJoined L.claimTable L.exposureTable
    (fun a => some (L.claimKey a)) fun b => some (L.exposureKey b)) : p.1 ∈ L.claims := by
  simp only [multiJoined, claimTable, exposureTable, mem_keep] at hp
  obtain ⟨a, o⟩ := p
  exact (mem_leftJoin.mp hp.1).1

theorem multi_eq :
    (claimNotMultiLinked (some L.claimTable) (some L.exposureTable)).violating_rows =
      L.claims.countP fun a => 1 < (L.covering a).length := by
  let joined := multiJoined L.claimTable L.exposureTable (fun a => some (L.claimKey a)) fun b =>
    some (L.exposureKey b)
  have hcount : ∀ a ∈ L.claims, 1 < joined.countP (fun p => some (L.claimId p.1) =
      some (L.claimId a)) ↔ 1 < (L.covering a).length := by
    intro a ha
    rw [count_multiJoined ha]
    split_ifs with h
    · simp [covering, h]
    · rfl
  have hperm : (((groupLengths (fun p => some (L.claimId p.1)) joined).filter fun g =>
      1 < g.2).map Prod.fst).Perm
        ((L.claims.filter fun a => 1 < (L.covering a).length).map fun a => some (L.claimId a)) := by
    apply (List.perm_ext_iff_of_nodup (groupLengths_keys.sublist (List.filter_sublist.map _)) _).mpr
    · intro k
      constructor
      · intro hk
        obtain ⟨⟨k, n⟩, hg, rfl⟩ := List.mem_map.mp hk
        obtain ⟨hg, hn⟩ := List.mem_filter.mp hg
        obtain ⟨hmem, rfl⟩ := mem_groupLengths.mp hg
        obtain ⟨p, hp, rfl⟩ := List.mem_map.mp hmem
        have ha := mem_multiJoined hp
        exact List.mem_map.mpr ⟨p.1, List.mem_filter.mpr
          ⟨ha, decide_eq_true ((hcount p.1 ha).mp (of_decide_eq_true hn))⟩, rfl⟩
      · intro hk
        obtain ⟨a, ha, rfl⟩ := List.mem_map.mp hk
        obtain ⟨ha, hn⟩ := List.mem_filter.mp ha
        have hn := (hcount a ha).mpr (of_decide_eq_true hn)
        obtain ⟨p, hp, hpa⟩ := List.countP_pos_iff.mp (lt_trans Nat.one_pos hn)
        refine List.mem_map.mpr ⟨(some (L.claimId a), _), List.mem_filter.mpr
          ⟨mem_groupLengths.mpr ⟨List.mem_map.mpr ⟨p, hp, of_decide_eq_true hpa⟩, rfl⟩, ?_⟩, rfl⟩
        exact decide_eq_true hn
    · have hsome := L.unique.map (Option.some_injective I)
      rw [List.map_map] at hsome
      exact hsome.sublist (List.filter_sublist.map _)
  have hlength := hperm.length_eq
  rw [List.length_map, List.length_map, ← List.countP_eq_length_filter (l := L.claims)] at hlength
  exact hlength

/-! ## Linkage is decided -/

omit [DecidableEq I] in
theorem outside_eq_iff : (if L.ofKey a ≠ [] ∧ L.covering a = [] then 1 else 0) =
    ((L.ofKey a).countP fun b => ¬ L.Covers a b) ↔
      (L.ofKey a).length ≤ 1 ∨ ∀ b ∈ L.ofKey a, L.Covers a b := by
  have hlength : (L.ofKey a).length = _ := length_ofKey
  have hall : (∀ b ∈ L.ofKey a, L.Covers a b) ↔ ((L.ofKey a).countP fun b => ¬ L.Covers a b) = 0 := by
    simp [List.countP_eq_zero]
  rw [hall]
  split_ifs with h
  all_goals
    rw [ne_eq, ← List.length_eq_zero_iff, ← List.length_eq_zero_iff] at h
    omega

omit [DecidableEq I] in
theorem outside_le : (if L.ofKey a ≠ [] ∧ L.covering a = [] then 1 else 0) ≤
    (L.ofKey a).countP fun b => ¬ L.Covers a b := by
  have hlength : (L.ofKey a).length = _ := length_ofKey
  split_ifs with h
  all_goals
    rw [ne_eq, ← List.length_eq_zero_iff, ← List.length_eq_zero_iff] at h
    omega

omit [DecidableEq I] in
theorem dates_eq_iff :
    (claimDateInExposure (some L.claimTable) (some L.exposureTable)).violating_rows =
        (L.claims.countP fun a => L.ofKey a ≠ [] ∧ L.covering a = []) ↔
      ∀ a ∈ L.claims, (L.ofKey a).length ≤ 1 ∨ ∀ b ∈ L.ofKey a, L.Covers a b := by
  rw [dates_eq, ← sum_ite_eq_countP, eq_comm, sum_eq_sum_iff_of_le fun a _ => outside_le]
  exact forall₂_congr fun a _ => outside_eq_iff

theorem passes_iff_of_counts
    (hdates : (claimDateInExposure (some L.claimTable) (some L.exposureTable)).violating_rows =
      L.claims.countP fun a => L.ofKey a ≠ [] ∧ L.covering a = []) :
    ((claimDateInExposure (some L.claimTable) (some L.exposureTable)).Passes ∧
      (claimLinkageComplete (some L.claimTable) (some L.exposureTable)).Passes ∧
      (claimNotMultiLinked (some L.claimTable) (some L.exposureTable)).Passes) ↔
    ∀ a ∈ L.claims, (L.covering a).length = 1 := by
  have hran : (claimDateInExposure (some L.claimTable) (some L.exposureTable)).skip_reason = none ∧
      (claimLinkageComplete (some L.claimTable) (some L.exposureTable)).skip_reason = none ∧
      (claimNotMultiLinked (some L.claimTable) (some L.exposureTable)).skip_reason = none :=
    ⟨rfl, rfl, rfl⟩
  simp only [CheckOutcome.Passes, hran, true_and, hdates, complete_eq, multi_eq,
    List.countP_eq_zero, ← forall₂_and]
  refine forall₂_congr fun a _ => ?_
  have hle : (L.covering a).length ≤ (L.ofKey a).length := List.length_filter_le _ _
  simp only [decide_eq_true_eq, ne_eq, ← List.length_eq_zero_iff]
  omega

/-- The checks decide linkage exactly where every claim whose key has several exposure rows lies in the
period of each of them. -/
theorem decided_iff : L.Decided ↔
    ∀ a ∈ L.claims, (L.ofKey a).length ≤ 1 ∨ ∀ b ∈ L.ofKey a, L.Covers a b := by
  constructor
  · intro h
    exact dates_eq_iff.mp h.date_in_exposure
  · intro h
    have hdates := dates_eq_iff.mpr h
    exact ⟨hdates, complete_eq, multi_eq, passes_iff_of_counts hdates⟩

/-- Two terms of one policy, and a loss in the first. -/
def renewed : Linkage ℕ (ℕ × ℕ) ℕ ℕ ℕ where
  claims := [3]
  exposure := [(0, 12), (12, 24)]
  claimKey _ := 1
  loss := id
  claimId := id
  exposureKey _ := 1
  start := Prod.fst
  stop := Prod.snd
  unique := List.nodup_singleton _

theorem renewed_miscounted : ¬ renewed.Decided := by
  intro h
  have hdates := h.date_in_exposure
  revert hdates
  decide

end Linkage

end GiPricing.Validation
