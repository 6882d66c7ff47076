import GiPricing.Comparison.Compare
import GiPricing.Dataflow.Entries

/-! # What a comparison repeats

The figures of a comparison beside the holdout diagnostics of each model, under another order of the
models and another baseline, and with the two models of a double lift exchanged.
-/

namespace GiPricing.Comparison

open Failure GiPricing.Order

variable {K R S : Type} [Field K] [LinearOrder K]

/-! ## Double lift exchanged -/

/-- A bin with its two columns exchanged, in the place of another. -/
def DoubleLiftBin.exchanged (bin : ℕ) (x : DoubleLiftBin K) : DoubleLiftBin K :=
  { x with
    bin := bin
    baseline_predicted := x.challenger_predicted
    challenger_predicted := x.baseline_predicted }

/-- Each prediction is a number above zero. -/
def Positive (mu : List (Reading K)) : Prop := ∀ x ∈ mu, ∃ a : K, x = some a ∧ 0 < a

/-- No two rows have one ratio. -/
def StrictRatios (baseline_mu challenger_mu : List (Reading K)) : Prop :=
  (ratios baseline_mu challenger_mu).Nodup

section Exchanged

variable {num : Elementary K} {actual exposure baseline_mu challenger_mu : List (Reading K)}

theorem length_ratios (h : baseline_mu.length = challenger_mu.length) :
    (ratios baseline_mu challenger_mu).length = baseline_mu.length := by
  rw [ratios, List.length_zipWith, ← h, min_self]

theorem ratio_at [IsStrictOrderedRing K] (hlength : baseline_mu.length = challenger_mu.length) (hbaseline : Positive baseline_mu)
    (hchallenger : Positive challenger_mu) {i : ℕ} (hi : i < baseline_mu.length) :
    ∃ r : K, 0 < r ∧ at? (ratios baseline_mu challenger_mu) i = some r ∧
      at? (ratios challenger_mu baseline_mu) i = some r⁻¹ := by
  have hi' : i < challenger_mu.length := by omega
  obtain ⟨b, hb, hbpos⟩ := hbaseline _ (List.getElem_mem hi)
  obtain ⟨c, hc, hcpos⟩ := hchallenger _ (List.getElem_mem hi')
  have hget : baseline_mu[i]? = some (some b) := by rw [List.getElem?_eq_getElem hi, hb]
  have hget' : challenger_mu[i]? = some (some c) := by rw [List.getElem?_eq_getElem hi', hc]
  refine ⟨c / b, div_pos hcpos hbpos, ?_, ?_⟩
  · simp [at?, ratios, List.getElem?_zipWith, hget, hget', Reading.lt, Reading.div, hbpos]
  · simp [at?, ratios, List.getElem?_zipWith, hget, hget', Reading.lt, Reading.div, hcpos, inv_div]

theorem ratios_turned [IsStrictOrderedRing K] (hlength : baseline_mu.length = challenger_mu.length)
    (hbaseline : Positive baseline_mu) (hchallenger : Positive challenger_mu) :
    Turned (keys (ratios baseline_mu challenger_mu)) (keys (ratios challenger_mu baseline_mu))
      baseline_mu.length := by
  intro i hi j hj
  obtain ⟨r, hr, hi, hi'⟩ := ratio_at hlength hbaseline hchallenger hi
  obtain ⟨t, ht, hj, hj'⟩ := ratio_at hlength hbaseline hchallenger hj
  simp only [keys, hi, hi', hj, hj', Reading.key, WithTop.coe_le_coe]
  exact inv_le_inv₀ hr ht

def binMask (baseline_mu challenger_mu : List (Reading K)) (b : ℕ) : List Bool :=
  (binIndex (ratios baseline_mu challenger_mu) lift_bins).map fun bin => decide (bin = b + 1)

theorem binMask_eq (hlength : baseline_mu.length = challenger_mu.length) (b : ℕ) :
    binMask baseline_mu challenger_mu b = (List.range baseline_mu.length).map fun i =>
      decide (block baseline_mu.length lift_bins
        (place (keys (ratios baseline_mu challenger_mu)) baseline_mu.length i) = b) := by
  rw [binMask, binIndex_eq _ (by decide), length_ratios hlength, List.map_map]
  apply List.map_congr_left
  intro i _
  simp

theorem binMask_empty (hlength : baseline_mu.length = challenger_mu.length) {b : ℕ} :
    (binMask baseline_mu challenger_mu b).count true = 0 ↔
      b ∉ blocks baseline_mu.length lift_bins := by
  rw [List.count_eq_zero, binMask_eq hlength, mem_blocks (by decide), not_iff_not, List.mem_map]
  simp only [List.mem_range, decide_eq_true_eq]
  constructor
  · rintro ⟨i, hi, h⟩
    exact ⟨_, place_lt hi, h⟩
  · rintro ⟨r, hr, rfl⟩
    have hget : r < (argsort (keys (ratios baseline_mu challenger_mu)) baseline_mu.length).length := by
      rwa [length_argsort]
    refine ⟨_, mem_argsort.mp (List.getElem_mem hget), ?_⟩
    rw [place, nodup_argsort.idxOf_getElem]

theorem liftBins_eq (hlength : baseline_mu.length = challenger_mu.length) :
    liftBins num actual exposure baseline_mu challenger_mu =
      (blocks baseline_mu.length lift_bins).map fun b =>
        liftBin num actual exposure baseline_mu challenger_mu (b + 1)
          (binMask baseline_mu challenger_mu b) := by
  have hstep : ∀ b, (if (binMask baseline_mu challenger_mu b).count true = 0 then none
      else some (liftBin num actual exposure baseline_mu challenger_mu (b + 1)
        (binMask baseline_mu challenger_mu b))) =
      if b ∈ blocks baseline_mu.length lift_bins then
        some (liftBin num actual exposure baseline_mu challenger_mu (b + 1)
          (binMask baseline_mu challenger_mu b)) else none := by
    intro b
    by_cases hb : b ∈ blocks baseline_mu.length lift_bins
    · rw [if_neg (fun h => binMask_empty hlength |>.mp h hb), if_pos hb]
    · rw [if_pos ((binMask_empty hlength).mpr hb), if_neg hb]
  have hblocks : blocks baseline_mu.length lift_bins = (List.range lift_bins).filter fun b =>
      decide (b ∈ blocks baseline_mu.length lift_bins) := by
    unfold blocks
    apply List.filter_congr
    intro b hb
    simp [hb]
  unfold liftBins
  rw [hblocks, ← List.filterMap_eq_map, List.filterMap_filter]
  apply List.filterMap_congr
  intro b _
  simp only [decide_eq_true_eq]
  exact hstep b

theorem binMask_exchanged [IsStrictOrderedRing K] (hlength : baseline_mu.length = challenger_mu.length)
    (hbaseline : Positive baseline_mu) (hchallenger : Positive challenger_mu)
    (hstrict : StrictRatios baseline_mu challenger_mu)
    (hrows : baseline_mu.length ≤ lift_bins ∨ lift_bins ∣ baseline_mu.length) {b : ℕ}
    (hb : b ∈ blocks baseline_mu.length lift_bins) :
    binMask challenger_mu baseline_mu b =
      binMask baseline_mu challenger_mu (across baseline_mu.length lift_bins b) := by
  rw [binMask_eq hlength, binMask_eq hlength.symm, ← hlength]
  apply List.map_congr_left
  intro i hi
  have hi := List.mem_range.mp hi
  have hkeys := keys_strict hstrict
  rw [length_ratios hlength] at hkeys
  rw [place_turned hkeys (ratios_turned hlength hbaseline hchallenger) hi,
    decide_eq_decide]
  exact block_eq_across_iff hrows (by decide) (place_lt hi) hb

theorem liftBins_exchanged [IsStrictOrderedRing K] (hlength : baseline_mu.length = challenger_mu.length)
    (hbaseline : Positive baseline_mu) (hchallenger : Positive challenger_mu)
    (hstrict : StrictRatios baseline_mu challenger_mu)
    (hrows : baseline_mu.length ≤ lift_bins ∨ lift_bins ∣ baseline_mu.length) :
    liftBins num actual exposure challenger_mu baseline_mu =
      List.zipWith DoubleLiftBin.exchanged
        ((liftBins num actual exposure baseline_mu challenger_mu).map DoubleLiftBin.bin)
        (liftBins num actual exposure baseline_mu challenger_mu).reverse := by
  rw [liftBins_eq hlength, liftBins_eq hlength.symm, ← hlength, ← List.map_reverse,
    ← map_across hrows (by decide), List.map_map, List.map_map, List.zipWith_map,
    List.zipWith_self]
  apply List.map_congr_left
  intro b hb
  rw [binMask_exchanged hlength hbaseline hchallenger hstrict hrows hb]
  rfl

end Exchanged

/-! ## A run -/

section Run

variable {num : Elementary K} {candidates candidates' : List (Candidate R S K)}
  {holdout : Book R K} {baseline baseline' : Option String} {s s' : ComparisonSummary K S}
  {first first' c : Candidate R S K}

/-- One metric of a comparison, from the figures of each model. -/
def measured (scheme : Weighting) (candidates : List (Candidate R S K))
    (figs : Candidate R S K → Figures K) (m : Metric) : ComparisonMetric K where
  metric := m
  weighting := scheme
  direction := m.direction
  values := candidates.map fun c => (c.ref, (figs c).figure m)
  leader := leader (candidates.map fun c => (c.ref, (figs c).figure m)) m.direction

/-- What a comparison computes: the predictions and the figures of each model. -/
structure Run (num : Elementary K) (candidates : List (Candidate R S K))
    (holdout : Book R K) (s : ComparisonSummary K S) (first : Candidate R S K)
    (mu : Candidate R S K → List (Reading K)) (figs : Candidate R S K → Figures K) : Prop where
  head : candidates.head? = some first
  nodup : (candidates.map Candidate.ref).Nodup
  response : ∀ c ∈ candidates, c.spec.response_column = first.spec.response_column
  column : first.spec.response_column ∈ holdout.columns
  scored : ∀ c ∈ candidates, c.score none holdout = .ok (mu c)
  figures : ∀ c ∈ candidates, figuresOf num holdout (holdout.numbers first.spec.response_column)
    (weights first.spec holdout) c (mu c) = .ok (figs c)
  metrics : s.metrics = Metric.all.map (measured (weighting first.spec) candidates figs)
  double_lift : ∀ lift ∈ s.double_lift, ∃ b ∈ candidates, ∃ c ∈ candidates,
    lift.baseline_ref = b.ref ∧ lift.challenger_ref = c.ref ∧
      lift.bins = liftBins num (holdout.numbers first.spec.response_column)
        (weights first.spec holdout) (mu b) (mu c)

omit [Field K] [LinearOrder K] in
theorem comparable_ok [DecidableEq S] {split_ref : S} (h : comparable candidates holdout = .ok (first, split_ref)) :
    candidates.head? = some first ∧ (candidates.map Candidate.ref).Nodup ∧
      ∀ c ∈ candidates, c.spec.response_column = first.spec.response_column := by
  match candidates with
  | [] => cases h
  | [_] => cases h
  | head :: next :: rest =>
    simp only [comparable, ensure_bind_eq_ok, require_bind_eq_ok, pure_eq_ok, Prod.mk.injEq] at h
    obtain ⟨-, hnodup, -, hresponse, _, -, -, rfl, -⟩ := h
    exact ⟨rfl, hnodup, hresponse⟩

theorem run_of_compareModels [DecidableEq S]
    (h : compareModels num candidates holdout baseline = .ok s) :
    ∃ first mu figs, Run num candidates holdout s first mu figs := by
  obtain ⟨⟨first, split_ref⟩, hfirst, h⟩ := bind_eq_ok.mp h
  obtain ⟨hhead, hnodup, hresponse⟩ := comparable_ok hfirst
  simp only [ensure_bind_eq_ok] at h
  obtain ⟨hbaseline, hcolumn, h⟩ := h
  obtain ⟨predicted, hpredicted, h⟩ := bind_eq_ok.mp h
  obtain ⟨table, htable, h⟩ := bind_eq_ok.mp h
  obtain ⟨mu, hmu, rfl⟩ := exists_map_of_mapM hpredicted
  obtain ⟨figs, hfigs, rfl⟩ := exists_map_of_mapM htable
  have hlookup : ∀ c ∈ candidates,
      ((candidates.map fun c => (c.ref, mu c)).lookup c.ref).getD [] = mu c := by
    intro c hc
    have hfound : (candidates.map fun c => (c.ref, mu c)).lookup c.ref = some (mu c) := by
      rw [Dataflow.lookup_eq_some_of_nodup (by rwa [List.map_map])]
      exact List.mem_map.mpr ⟨c, hc, rfl⟩
    rw [hfound, Option.getD_some]
  obtain rfl := pure_eq_ok.mp h
  refine ⟨first, mu, figs, hhead, hnodup, hresponse, hcolumn, hmu, fun c hc => ?_, ?_, ?_⟩
  · rw [← hlookup c hc]
    exact hfigs c hc
  · apply List.map_congr_left
    intro m _
    rw [measured, List.map_map]
    rfl
  · intro lift hlift
    obtain ⟨ref, href, rfl⟩ := List.mem_map.mp hlift
    obtain ⟨b, hb, hbref⟩ := List.mem_map.mp hbaseline
    obtain ⟨c, hc, rfl⟩ := List.mem_map.mp (List.mem_filter.mp href).1
    refine ⟨b, hb, c, hc, hbref.symm, rfl, ?_⟩
    dsimp only
    rw [← hbref, hlookup b hb, hlookup c hc]

namespace Run

variable {mu mu' : Candidate R S K → List (Reading K)} {figs figs' : Candidate R S K → Figures K}

theorem metric_eq (r : Run num candidates holdout s first mu figs) (m : Metric) :
    s.metric? m = some (measured (weighting first.spec) candidates figs m) := by
  rw [ComparisonSummary.metric?, r.metrics]
  cases m <;> rfl

theorem figure_eq (r : Run num candidates holdout s first mu figs) (hc : c ∈ candidates)
    (m : Metric) : s.figure m c.ref = some ((figs c).figure m) := by
  rw [ComparisonSummary.figure, r.metric_eq, Option.bind_some, measured,
    Dataflow.lookup_eq_some_of_nodup (by rw [List.map_map]; exact r.nodup)]
  exact List.mem_map.mpr ⟨c, hc, rfl⟩

theorem leaderOf_eq (r : Run num candidates holdout s first mu figs) (m : Metric) :
    s.leaderOf m = leader (candidates.map fun c => (c.ref, (figs c).figure m)) m.direction := by
  rw [ComparisonSummary.leaderOf, r.metric_eq]
  rfl

end Run

/-! ## Its own diagnostics -/

/-- The weight rule leaves every row of a frame in. -/
def Whole (spec : ModelSpec K S) (holdout : Book R K) : Prop :=
  (∀ column, declared holdout spec.weight.column? = some column →
    ∀ row ∈ holdout.rows, holdout.cell column row ≠ some 0) ∧
  (spec.response = some .claim_severity → ∀ row ∈ holdout.rows,
    holdout.cell spec.response_column row ≠ none)

omit [Field K] [LinearOrder K] in
theorem exclude_data {spec : ModelSpec K S} {keep : List Bool}
    (hkeep : ∀ k ∈ keep, k = true) (hresponse : spec.response = some .claim_severity →
      ∀ row ∈ holdout.rows, holdout.cell spec.response_column row ≠ none) :
    (exclude holdout keep spec).data = holdout := by
  unfold exclude
  dsimp only
  rw [if_pos]
  rw [List.all_eq_true]
  intro k hk
  split_ifs at hk with hseverity
  · obtain ⟨i, hi, rfl⟩ := List.getElem_of_mem hk
    rw [List.length_zipWith] at hi
    have hrow : i < holdout.rows.length := by
      rw [Book.numbers, List.length_map, List.length_map] at hi
      omega
    have hcell := hresponse hseverity.1 _ (List.getElem_mem hrow)
    have hfirst := hkeep _ (List.getElem_mem (by omega : i < keep.length))
    simp [Book.numbers, hfirst, Option.isSome_iff_ne_none, hcell]
  · exact hkeep k hk

theorem dropZeroWeightRows_data {spec : ModelSpec K S} (h : Whole spec holdout) :
    (dropZeroWeightRows holdout spec).data = holdout := by
  unfold dropZeroWeightRows
  cases hweight : declared holdout spec.weight.column? with
  | none =>
    apply exclude_data _ h.2
    simp
  | some column =>
    apply exclude_data _ h.2
    intro k hk
    obtain ⟨w, hw, rfl⟩ := List.mem_map.mp hk
    obtain ⟨row, hrow, rfl⟩ := List.mem_map.mp hw
    have hne := h.1 column hweight row hrow
    cases hcell : holdout.cell column row with
    | none => rfl
    | some a =>
      have ha : a ≠ 0 := fun h0 => hne (by rw [hcell, h0])
      simp [Reading.same, ha]

/-- The figures of one model are those of its own diagnostics of the holdout: the actual over the
expected where it expects something, and the Gini where it has the weights of the first model. -/
structure RepeatsOwn (s : ComparisonSummary K S) (holdout : Book R K) (first c : Candidate R S K)
    (mu : List (Reading K)) (d : PartitionDiagnostics K) : Prop where
  rows : s.figure .rows c.ref = some (some (some (d.rows : K)))
  ae_overall : Reading.lt (some 0) (expectedTotal c.spec holdout mu) = true →
    s.figure .ae_overall c.ref = some (some d.ae_overall)
  nothing_expected : Reading.lt (some 0) (expectedTotal c.spec holdout mu) = false →
    s.figure .ae_overall c.ref = some none ∧ d.ae_overall = some 0
  gini : weights c.spec holdout = weights first.spec holdout →
    s.figure .gini c.ref = some (some d.gini) ∧
      s.figure .gini_normalised c.ref = some (some d.gini_normalised)

theorem figuresOf_eq_ok {actual exposure mu : List (Reading K)} {f : Figures K} :
    figuresOf num holdout actual exposure c mu = .ok f ↔ ∃ fam power total,
      family c.spec = .ok (fam, power) ∧
      deviance num actual mu fam power (thetaOf c.spec) = .ok total ∧
      f = ⟨if Reading.lt (some 0) (expectedTotal c.spec holdout mu) then
          some (actualOverExpected c.spec holdout actual mu) else none,
        (gini actual mu exposure).1, (gini actual mu exposure).2, total, some (actual.length : K)⟩ := by
  unfold figuresOf
  simp only [bind_eq_ok, pure_eq_ok, Prod.exists]
  constructor
  · rintro ⟨fam, power, hfamily, total, htotal, rfl⟩
    exact ⟨fam, power, total, hfamily, htotal, rfl⟩
  · rintro ⟨fam, power, total, hfamily, htotal, rfl⟩
    exact ⟨fam, power, hfamily, total, htotal, rfl⟩

theorem Run.repeats {mu : Candidate R S K → List (Reading K)} {figs : Candidate R S K → Figures K}
    (r : Run num candidates holdout s first mu figs) (hc : c ∈ candidates)
    {model_offset : Option (List (Reading K))} {d : PartitionDiagnostics K}
    (hd : holdoutDiagnostics num c model_offset holdout = .ok d) (hwhole : Whole c.spec holdout) :
    RepeatsOwn s holdout first c (mu c) d := by
  obtain ⟨fam, power, total, -, -, hfigs⟩ := figuresOf_eq_ok.mp (r.figures c hc)
  have hoffset : c.spec.offset ≠ .model := fun hmodel =>
    c.score_model hmodel holdout (mu c) (r.scored c hc)
  obtain ⟨predicted, hpredicted, hd⟩ := bind_eq_ok.mp hd
  rw [if_neg hoffset, dropZeroWeightRows_data hwhole, r.scored c hc] at hpredicted
  obtain rfl := Except.ok.inj hpredicted
  obtain ⟨terms, -, hd⟩ := bind_eq_ok.mp hd
  rw [dropZeroWeightRows_data hwhole] at hd
  simp only [partition, ensure_bind_eq_ok, pure_eq_ok] at hd
  obtain ⟨-, -, rfl⟩ := hd
  have hresponse := r.response c hc
  constructor
  · rw [r.figure_eq hc, hfigs]
    simp [Figures.figure, Book.numbers]
  · intro hexpected
    rw [r.figure_eq hc, hfigs]
    simp [Figures.figure, hexpected, hresponse]
  · intro hexpected
    rw [r.figure_eq hc, hfigs]
    simp [Figures.figure, hexpected]
  · intro hweights
    rw [r.figure_eq hc, r.figure_eq hc, hfigs, hweights, hresponse]
    exact ⟨rfl, rfl⟩

/-! ## Another order -/

/-- The two metrics that are taken with the weights of the first model. -/
def Metric.OfFirst (m : Metric) : Prop := m = .gini ∨ m = .gini_normalised

/-- A metric that each model has a number for, where it has a value. -/
def Numbers (s : ComparisonSummary K S) (candidates : List (Candidate R S K)) (m : Metric) : Prop :=
  ∀ c ∈ candidates, s.figure m c.ref ≠ some (some none)

section Leader

variable {values values' : List (String × Option (Reading K))}

theorem higher_ordered {keys : List (Reading K)} (h : none ∉ keys) :
    Ordered (fun x y => y.lt x) (fun x : Reading K => x.getD 0) keys := by
  intro x hx y hy
  cases x with
  | none => exact absurd hx h
  | some a =>
    cases y with
    | none => exact absurd hy h
    | some b => simp [Reading.lt]

theorem lower_ordered {keys : List (Reading K)} (h : none ∉ keys) :
    Ordered Reading.lt (fun x : Reading K => OrderDual.toDual (x.getD 0)) keys := by
  intro x hx y hy
  cases x with
  | none => exact absurd hx h
  | some a =>
    cases y with
    | none => exact absurd hy h
    | some b => simp [Reading.lt]

omit [LinearOrder K] in
theorem number_injective {keys : List (Reading K)} (h : none ∉ keys) :
    ∀ x ∈ keys, ∀ y ∈ keys, x.getD 0 = y.getD 0 → x = y := by
  intro x hx y hy heq
  cases x with
  | none => exact absurd hx h
  | some a =>
    cases y with
    | none => exact absurd hy h
    | some b => exact congrArg some heq

theorem leader_perm (hperm : values.Perm values') (h : ∀ v ∈ values, v.2 ≠ some none)
    (direction : MetricDirection) : leader values direction = leader values' direction := by
  have hscored := hperm.filterMap fun v => v.2.map fun x => (v.1, x)
  have hnumbers : none ∉ (values.filterMap fun v => v.2.map fun x => (v.1, x)).map Prod.snd := by
    intro hnone
    obtain ⟨p, hp, hnone⟩ := List.mem_map.mp hnone
    obtain ⟨v, hv, hp⟩ := List.mem_filterMap.mp hp
    obtain ⟨x, hx, rfl⟩ := Option.map_eq_some_iff.mp hp
    exact h v hv (by rw [hx, ← hnone])
  unfold leader
  dsimp only
  cases direction with
  | not_ordered => rfl
  | higher_is_better =>
    exact winner_perm hscored (higher_ordered hnumbers) (number_injective hnumbers)
  | lower_is_better =>
    exact winner_perm hscored (lower_ordered hnumbers) (number_injective hnumbers)
  | closer_to_one_is_better =>
    have hdistances : none ∉ ((values.filterMap fun v => v.2.map fun x => (v.1, x)).map
        fun v => (v.1, Reading.abs (v.2.sub (some 1)))).map Prod.snd := by
      rw [List.map_map]
      intro hnone
      obtain ⟨⟨ref, x⟩, hp, hnone⟩ := List.mem_map.mp hnone
      cases x with
      | none => exact hnumbers (List.mem_map.mpr ⟨_, hp, rfl⟩)
      | some a => cases hnone
    exact winner_perm (hscored.map _) (lower_ordered hdistances) (number_injective hdistances)

end Leader

namespace Run

variable {mu mu' : Candidate R S K → List (Reading K)} {figs figs' : Candidate R S K → Figures K}

theorem first_mem (r : Run num candidates holdout s first mu figs) : first ∈ candidates :=
  List.mem_of_mem_head? r.head

theorem mu_eq (r : Run num candidates holdout s first mu figs)
    (r' : Run num candidates' holdout s' first' mu' figs') (hperm : candidates'.Perm candidates)
    (hc : c ∈ candidates) : mu' c = mu c := by
  have hscored := r'.scored c (hperm.mem_iff.mpr hc)
  rw [r.scored c hc] at hscored
  exact (Except.ok.inj hscored).symm

theorem response_eq (r : Run num candidates holdout s first mu figs)
    (r' : Run num candidates' holdout s' first' mu' figs') (hperm : candidates'.Perm candidates) :
    first'.spec.response_column = first.spec.response_column :=
  r.response first' (hperm.mem_iff.mp r'.first_mem)

theorem figure_same (r : Run num candidates holdout s first mu figs)
    (r' : Run num candidates' holdout s' first' mu' figs') (hperm : candidates'.Perm candidates)
    (hc : c ∈ candidates) {m : Metric}
    (hm : m.OfFirst → weights first'.spec holdout = weights first.spec holdout) :
    (figs' c).figure m = (figs c).figure m := by
  obtain ⟨fam, power, total, hfamily, htotal, hfigs⟩ := figuresOf_eq_ok.mp (r.figures c hc)
  obtain ⟨fam', power', total', hfamily', htotal', hfigs'⟩ :=
    figuresOf_eq_ok.mp (r'.figures c (hperm.mem_iff.mpr hc))
  rw [hfamily] at hfamily'
  obtain ⟨rfl, rfl⟩ := Prod.mk.inj (Except.ok.inj hfamily')
  rw [mu_eq r r' hperm hc, response_eq r r' hperm] at htotal' hfigs'
  rw [htotal] at htotal'
  obtain rfl := Except.ok.inj htotal'
  rw [hfigs, hfigs']
  cases m with
  | ae_overall => rfl
  | gini => rw [hm (Or.inl rfl)]
  | gini_normalised => rw [hm (Or.inr rfl)]
  | holdout_deviance => rfl
  | rows => rfl

theorem leader_same (r : Run num candidates holdout s first mu figs)
    (r' : Run num candidates' holdout s' first' mu' figs') (hperm : candidates'.Perm candidates)
    {m : Metric} (hm : m.OfFirst → weights first'.spec holdout = weights first.spec holdout)
    (hnumbers : Numbers s candidates m) : s'.leaderOf m = s.leaderOf m := by
  rw [r.leaderOf_eq, r'.leaderOf_eq]
  have hvalues : candidates.map (fun c => (c.ref, (figs' c).figure m)) =
      candidates.map fun c => (c.ref, (figs c).figure m) :=
    List.map_congr_left fun c hc => by rw [figure_same r r' hperm hc hm]
  rw [← hvalues]
  symm
  apply leader_perm (hperm.symm.map _)
  rw [hvalues]
  intro v hv hnone
  obtain ⟨c, hc, rfl⟩ := List.mem_map.mp hv
  exact hnumbers c hc ((r.figure_eq hc m).trans (congrArg some hnone))

end Run

/-- The deviance of a model under its own family, fitted power and theta. -/
def ownDeviance (num : Elementary K) (c : Candidate R S K) (holdout : Book R K)
    (mu : List (Reading K)) : Except Refusal (Reading K) := do
  let (fam, power) ← c.familyOf
  deviance num (holdout.numbers c.spec.response_column) mu fam power (thetaOf c.spec)

/-- A table has the figures and the leaders of another, those of the first model's weights where these
are the same. -/
structure SameTable (s s' : ComparisonSummary K S) (candidates : List (Candidate R S K))
    (holdout : Book R K) (first first' : Candidate R S K) : Prop where
  figure : ∀ m : Metric, (m.OfFirst → weights first'.spec holdout = weights first.spec holdout) →
    ∀ c ∈ candidates, s'.figure m c.ref = s.figure m c.ref
  leader : ∀ m : Metric, (m.OfFirst → weights first'.spec holdout = weights first.spec holdout) →
    Numbers s candidates m → s'.leaderOf m = s.leaderOf m

/-- The double lift of one model against another is turned over in a second comparison. -/
def LiftsExchanged (s s' : ComparisonSummary K S) (b c : Candidate R S K) : Prop :=
  ∀ lift ∈ s.double_lift, lift.baseline_ref = b.ref → lift.challenger_ref = c.ref →
    ∀ lift' ∈ s'.double_lift, lift'.baseline_ref = c.ref → lift'.challenger_ref = b.ref →
      lift'.bins = List.zipWith DoubleLiftBin.exchanged (lift.bins.map DoubleLiftBin.bin)
        lift.bins.reverse

/-- The predictions of two models whose double lift has equal bins either way round. -/
structure Exchangeable (holdout : Book R K) (b c : Candidate R S K) : Prop where
  positive : ∀ mu, b.score none holdout = .ok mu ∨ c.score none holdout = .ok mu → Positive mu
  strict : ∀ mu mu', b.score none holdout = .ok mu → c.score none holdout = .ok mu' →
    StrictRatios mu mu'
  rows : holdout.rows.length ≤ lift_bins ∨ lift_bins ∣ holdout.rows.length

theorem Run.exchanged [IsStrictOrderedRing K] {mu mu' : Candidate R S K → List (Reading K)}
    {figs figs' : Candidate R S K → Figures K}
    (r : Run num candidates holdout s first mu figs)
    (r' : Run num candidates' holdout s' first' mu' figs') (hperm : candidates'.Perm candidates)
    (hweights : weights first'.spec holdout = weights first.spec holdout) {b : Candidate R S K}
    (hb : b ∈ candidates) (hc : c ∈ candidates) (h : Exchangeable holdout b c) :
    LiftsExchanged s s' b c := by
  intro lift hlift hbaseline hchallenger lift' hlift' hbaseline' hchallenger'
  have hone : ∀ {x y : Candidate R S K}, x ∈ candidates → y ∈ candidates → x.ref = y.ref → x = y :=
    fun hx hy heq => List.inj_on_of_nodup_map r.nodup hx hy heq
  obtain ⟨x, hx, y, hy, hxref, hyref, hbins⟩ := r.double_lift lift hlift
  obtain rfl := hone hx hb (hxref.symm.trans hbaseline)
  obtain rfl := hone hy hc (hyref.symm.trans hchallenger)
  obtain ⟨z, hz, w, hw, hzref, hwref, hbins'⟩ := r'.double_lift lift' hlift'
  obtain rfl := hone (hperm.mem_iff.mp hz) hc (hzref.symm.trans hbaseline')
  obtain rfl := hone (hperm.mem_iff.mp hw) hb (hwref.symm.trans hchallenger')
  rw [hbins, hbins', mu_eq r r' hperm hb, mu_eq r r' hperm hc, response_eq r r' hperm, hweights]
  have hlength := w.score_length _ _ _ (r.scored w hb)
  have hlength' := z.score_length _ _ _ (r.scored z hc)
  exact liftBins_exchanged (hlength.trans hlength'.symm) (h.positive _ (Or.inl (r.scored w hb)))
    (h.positive _ (Or.inr (r.scored z hc))) (h.strict _ _ (r.scored w hb) (r.scored z hc))
    (by rw [hlength]; exact h.rows)

/-- A comparison repeats the diagnostics of each model that loses no row to the weight rule, in any order
of the models and against any baseline, and the double lift of two models is turned over with them. -/
theorem comparison_repeats [IsStrictOrderedRing K] [DecidableEq S]
    (h : compareModels num candidates holdout baseline = .ok s) :
    ∃ first ∈ candidates.head?,
      (∀ c ∈ candidates, ∃ mu total, c.score none holdout = .ok mu ∧
        (Whole c.spec holdout → ∀ model_offset d,
          holdoutDiagnostics num c model_offset holdout = .ok d → RepeatsOwn s holdout first c mu d) ∧
        s.figure .holdout_deviance c.ref = some (some total) ∧
        (family c.spec = c.familyOf → ownDeviance num c holdout mu = .ok total)) ∧
      ∀ candidates' baseline' s', candidates'.Perm candidates →
        compareModels num candidates' holdout baseline' = .ok s' →
          ∃ first' ∈ candidates'.head?, SameTable s s' candidates holdout first first' ∧
            (weights first'.spec holdout = weights first.spec holdout → ∀ b ∈ candidates,
              ∀ c ∈ candidates, Exchangeable holdout b c → LiftsExchanged s s' b c) := by
  obtain ⟨first, mu, figs, r⟩ := run_of_compareModels h
  refine ⟨first, r.head, fun c hc => ?_, fun candidates' baseline' s' hperm h' => ?_⟩
  · obtain ⟨fam, power, total, hfamily, htotal, hfigs⟩ := figuresOf_eq_ok.mp (r.figures c hc)
    refine ⟨mu c, total, r.scored c hc, fun hwhole _ _ hd => r.repeats hc hd hwhole, ?_, fun hown => ?_⟩
    · rw [r.figure_eq hc, hfigs]
      rfl
    · rw [ownDeviance, ← hown, hfamily, r.response c hc]
      exact htotal
  · obtain ⟨first', mu', figs', r'⟩ := run_of_compareModels h'
    refine ⟨first', r'.head, ⟨fun m hm c hc => ?_, fun m hm => Run.leader_same r r' hperm hm⟩,
      fun hweights b hb c hc => r.exchanged r' hperm hweights hb hc⟩
    rw [r.figure_eq hc, r'.figure_eq (hperm.mem_iff.mpr hc), Run.figure_same r r' hperm hc hm]

end Run

/-! ## Two models -/

def claimsBook (rows : List ℚ) : Book ℚ ℚ :=
  ⟨["claims", "weight"], rows, fun column row => if column = "claims" then some 1 else some row⟩

/-- A Gaussian model of the claims that predicts from the weight. -/
def claimsModel (ref : String) (weight : WeightSpec) (predict : ℚ → ℚ) : Candidate ℚ ℕ ℚ where
  ref := ref
  spec := ⟨"claims", none, .none, weight, some 0, .glm .gaussian none none⟩
  estimated_power := none
  score := fun _ data => .ok (data.rows.map fun row => some (predict row))
  score_length := by
    intro offset data mu h
    obtain rfl := Except.ok.inj h
    simp
  score_model := by simp
  terms := fun _ => .ok []

def levelAndRising (weight : WeightSpec) : List (Candidate ℚ ℕ ℚ) :=
  [claimsModel "level" weight fun _ => 1, claimsModel "rising" weight fun row => row + 1]

/-- Two models with weights above zero: the comparison repeats the diagnostics of the second. -/
theorem rising_repeated : ∃ s d,
    compareModels exactNumbers (levelAndRising (.column "weight")) (claimsBook [1, 2, 3]) none =
      .ok s ∧
    holdoutDiagnostics exactNumbers (claimsModel "rising" (.column "weight") fun row => row + 1) none
      (claimsBook [1, 2, 3]) = .ok d ∧
    s.figure .rows "rising" = some (some (some (d.rows : ℚ))) ∧
    s.figure .gini "rising" = some (some d.gini) := by
  have hs : (compareModels exactNumbers (levelAndRising (.column "weight"))
      (claimsBook [1, 2, 3]) none).isOk = true := by with_unfolding_all decide
  have hd : (holdoutDiagnostics exactNumbers (claimsModel "rising" (.column "weight") fun row => row + 1) none
      (claimsBook [1, 2, 3])).isOk = true := by with_unfolding_all decide
  obtain ⟨s, hs⟩ := exists_ok hs
  obtain ⟨d, hd⟩ := exists_ok hd
  obtain ⟨first, hfirst, hown, -⟩ := comparison_repeats hs
  obtain ⟨mu, total, hmu, hrepeats, -⟩ := hown _ (List.mem_cons_of_mem _ List.mem_cons_self)
  have hwhole : Whole (claimsModel "rising" (.column "weight") fun row => row + 1).spec
      (claimsBook [1, 2, 3]) := by
    refine ⟨fun column hcolumn => ?_, fun hseverity => absurd hseverity (by decide)⟩
    obtain rfl : "weight" = column := Option.some.inj hcolumn
    decide
  have hrepeated := hrepeats hwhole none d hd
  refine ⟨s, d, hs, hd, hrepeated.rows, (hrepeated.gini ?_).1⟩
  obtain rfl := Option.some.inj hfirst
  rfl

/-- A row of weight zero is in the comparison and not in the diagnostics. Eleven rows have two in the
first bin whichever model is the baseline, and no bin of the one double lift has the predictions of the
first of the other. -/
theorem rising_departs :
    (∃ s d, compareModels exactNumbers (levelAndRising (.column "weight")) (claimsBook [0, 1]) none =
        .ok s ∧
      holdoutDiagnostics exactNumbers (claimsModel "rising" (.column "weight") fun row => row + 1) none
        (claimsBook [0, 1]) = .ok d ∧
      s.figure .rows "rising" = some (some (some 2)) ∧ d.rows = 1) ∧
    ∃ s s', compareModels exactNumbers (levelAndRising .none)
        (claimsBook [0, 1, 2, 3, 4, 5, 6, 7, 8, 9, 10]) (some "level") = .ok s ∧
      compareModels exactNumbers (levelAndRising .none)
        (claimsBook [0, 1, 2, 3, 4, 5, 6, 7, 8, 9, 10]) (some "rising") = .ok s' ∧
      StrictRatios (List.replicate 11 (some 1)) ((List.range 11).map fun i => some ((i : ℚ) + 1)) ∧
      ∃ lift ∈ s.double_lift, ∃ lift' ∈ s'.double_lift, ∃ x' ∈ lift'.bins, ∀ x ∈ lift.bins,
        (x'.baseline_predicted, x'.challenger_predicted) ≠
          (x.challenger_predicted, x.baseline_predicted) := by
  constructor
  · have hs : ((compareModels exactNumbers (levelAndRising (.column "weight"))
        (claimsBook [0, 1]) none).toOption.map fun s => s.figure .rows "rising") =
          some (some (some (some 2))) := by with_unfolding_all decide
    have hd : ((holdoutDiagnostics exactNumbers (claimsModel "rising" (.column "weight") fun row => row + 1) none
        (claimsBook [0, 1])).toOption.map fun d => d.rows) = some 1 := by with_unfolding_all decide
    obtain ⟨s, hrun, hs⟩ := Option.map_eq_some_iff.mp hs
    obtain ⟨d, hown, hd⟩ := Option.map_eq_some_iff.mp hd
    exact ⟨s, d, toOption_eq_some.mp hrun, toOption_eq_some.mp hown, hs, hd⟩
  · have hs : (compareModels exactNumbers (levelAndRising .none)
        (claimsBook [0, 1, 2, 3, 4, 5, 6, 7, 8, 9, 10]) (some "level")).isOk = true := by
      with_unfolding_all decide
    have hs' : (compareModels exactNumbers (levelAndRising .none)
        (claimsBook [0, 1, 2, 3, 4, 5, 6, 7, 8, 9, 10]) (some "rising")).isOk = true := by
      with_unfolding_all decide
    have hbins : ((compareModels exactNumbers (levelAndRising .none)
        (claimsBook [0, 1, 2, 3, 4, 5, 6, 7, 8, 9, 10]) (some "level")).toOption.bind fun s =>
          (compareModels exactNumbers (levelAndRising .none)
            (claimsBook [0, 1, 2, 3, 4, 5, 6, 7, 8, 9, 10]) (some "rising")).toOption.map fun s' =>
          s.double_lift.any fun lift => s'.double_lift.any fun lift' => lift'.bins.any fun x' =>
            lift.bins.all fun x => decide ((x'.baseline_predicted, x'.challenger_predicted) ≠
              (x.challenger_predicted, x.baseline_predicted))) = some true := by with_unfolding_all decide
    obtain ⟨s, hs⟩ := exists_ok hs
    obtain ⟨s', hs'⟩ := exists_ok hs'
    refine ⟨s, s', hs, hs', by unfold StrictRatios; with_unfolding_all decide, ?_⟩
    rw [toOption_eq_some.mpr hs, toOption_eq_some.mpr hs', Option.bind_some, Option.map_some,
      Option.some.injEq] at hbins
    simpa only [List.any_eq_true, List.all_eq_true, decide_eq_true_eq] using hbins

end GiPricing.Comparison
