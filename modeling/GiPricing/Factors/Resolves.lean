import GiPricing.Factors.Frames

/-! # What a resolution takes

A list of factors resolves on a frame just where each of them does, and a cross reads of its operands
what they would be alone.
-/

namespace GiPricing.Factors.Frames

open Failure

def byId (factors : List Factor) (id : UUID) : Option Factor :=
  factors.reverse.find? fun g => g.id = id

theorem byId_mem {factors : List Factor} {id : UUID} {g : Factor} (h : byId factors id = some g) :
    g ∈ factors ∧ g.id = id := by
  have hprop := List.find?_some h
  exact ⟨List.mem_reverse.mp (List.mem_of_find?_eq_some h), by simpa using hprop⟩

theorem byId_cons {f : Factor} {l : List Factor} {id : UUID} :
    byId (f :: l) id = (byId l id).or (if f.id = id then some f else none) := by
  unfold byId
  rw [List.reverse_cons, List.find?_append]
  by_cases h : f.id = id <;> simp [h]

theorem byId_filter {p : Factor → Bool} {id : UUID} {g : Factor} : ∀ {l : List Factor},
    byId l id = some g → p g = true → byId (l.filter p) id = some g
  | [], h, _ => by cases h
  | f :: l, h, hp => by
    rw [byId_cons, Option.or_eq_some_iff] at h
    rcases h with hl | ⟨hl, hf⟩
    · by_cases hpf : p f = true
      · rw [List.filter_cons_of_pos hpf, byId_cons, byId_filter hl hp]
        rfl
      · rw [List.filter_cons_of_neg hpf, byId_filter hl hp]
    · by_cases hid : f.id = id
      · obtain rfl : f = g := by simpa [hid] using hf
        have hnone : byId (l.filter p) id = none := by
          unfold byId at hl ⊢
          rw [List.find?_eq_none] at hl ⊢
          exact fun a ha => hl a (List.mem_reverse.mpr
            (List.mem_of_mem_filter (List.mem_reverse.mp ha)))
        rw [List.filter_cons_of_pos hp, byId_cons, hnone, if_pos hid, Option.none_or]
      · simp [hid] at hf

variable {N F : Type} [LinearOrder F] [Zero F] [One F] {height : ℕ} {engine : Engine N F}
  {artifacts : Artifacts F} {frame : Frame N height} {factors : List Factor}

/-! ## The first pass -/

variable (engine artifacts frame) in
/-- What the first pass takes of a factor. -/
def PlainResolvable (f : Factor) : Prop := checkFactor frame f = .ok () ∧
  (f.type ≠ .interaction → ∃ series, plainSeries engine artifacts frame f = .ok series)

theorem resolvePlain_ok {r : Resolution N height} {f : Factor} :
    (∃ r', resolvePlain engine artifacts frame factors r f = .ok r') ↔
      PlainResolvable engine artifacts frame f := by
  constructor
  · rintro ⟨r', h⟩
    obtain ⟨_, hcheck, h⟩ := bind_eq_ok.mp h
    refine ⟨hcheck, fun htype => ?_⟩
    rw [if_neg htype] at h
    obtain ⟨series, hseries, -⟩ := bind_eq_ok.mp h
    exact ⟨series, hseries⟩
  · rintro ⟨hcheck, hplain⟩
    by_cases htype : f.type = .interaction
    · exact ⟨r, bind_eq_ok.mpr ⟨(), hcheck, by rw [if_pos htype]; rfl⟩⟩
    · obtain ⟨series, hseries⟩ := hplain htype
      refine ⟨r.withSeries factors f series, bind_eq_ok.mpr ⟨(), hcheck, ?_⟩⟩
      rw [if_neg htype]
      exact bind_eq_ok.mpr ⟨series, hseries, rfl⟩

theorem plainPass_ok : ∀ {l : List Factor} {r : Resolution N height},
    (∃ r', l.foldlM (resolvePlain engine artifacts frame factors) r = .ok r') ↔
      ∀ f ∈ l, PlainResolvable engine artifacts frame f
  | [], r => by simp [List.foldlM, pure, Except.pure]
  | f :: l, r => by
    have hfirst : (∃ r', resolvePlain engine artifacts frame factors r f = .ok r') ↔
        PlainResolvable engine artifacts frame f := resolvePlain_ok
    rw [List.forall_mem_cons, ← hfirst]
    constructor
    · rintro ⟨r', h⟩
      obtain ⟨next, hnext, hrest⟩ := foldlM_cons_eq_ok.mp h
      exact ⟨⟨next, hnext⟩, plainPass_ok.mp ⟨r', hrest⟩⟩
    · rintro ⟨⟨next, hnext⟩, hl⟩
      obtain ⟨r', hrest⟩ := plainPass_ok.mpr hl
      exact ⟨r', foldlM_cons_eq_ok.mpr ⟨next, hnext, hrest⟩⟩

def plainFactors (factors : List Factor) : List Factor :=
  factors.filter fun f => f.type ≠ .interaction

/-- After the first pass an id has the series of the last factor that it is the id of. -/
theorem lookup_of_plainPass {id : UUID} : ∀ {l : List Factor} {r r' : Resolution N height},
    l.foldlM (resolvePlain engine artifacts frame factors) r = .ok r' →
    r'.resolved.lookup id = match byId (plainFactors l) id with
      | some g => (plainSeries engine artifacts frame g).toOption
      | none => r.resolved.lookup id
  | [], r, r', h => by
    obtain rfl := pure_eq_ok.mp h
    rfl
  | f :: l, r, r', h => by
    obtain ⟨next, hnext, hrest⟩ := foldlM_cons_eq_ok.mp h
    obtain ⟨_, -, hnext⟩ := bind_eq_ok.mp hnext
    rw [lookup_of_plainPass hrest]
    unfold plainFactors
    split_ifs at hnext with htype
    · obtain rfl := pure_eq_ok.mp hnext
      rw [List.filter_cons_of_neg (by simpa using htype)]
    · obtain ⟨series, hseries, hnext⟩ := bind_eq_ok.mp hnext
      obtain rfl := pure_eq_ok.mp hnext
      have hresolved : (r.withSeries factors f series).resolved = (f.id, series) :: r.resolved := by
        unfold Resolution.withSeries
        split_ifs <;> rfl
      rw [List.filter_cons_of_pos (by simpa using htype), byId_cons, hresolved, List.lookup_cons]
      cases hl : byId (l.filter fun f => decide (f.type ≠ .interaction)) id with
      | some g => rfl
      | none =>
        rw [Option.none_or]
        by_cases hid : f.id = id
        · rw [if_pos hid, beq_iff_eq.mpr hid.symm]
          change some series = (plainSeries engine artifacts frame f).toOption
          rw [hseries]
          rfl
        · rw [if_neg hid, beq_false_of_ne (Ne.symm hid)]

/-! ## The second pass -/

variable (engine artifacts frame factors) in
/-- The levels that the factor of an id brings to a cross. -/
def Side (id : UUID) (series : Series N height) : Prop :=
  ∃ g, byId factors id = some g ∧ g.type ≠ .interaction ∧
    plainSeries engine artifacts frame g = .ok series ∧ series.kind = .levels

theorem operandSeries_eq_ok {plain : Resolution N height} {f : Factor} {id : UUID}
    {series : Series N height}
    (hplain : factors.foldlM (resolvePlain engine artifacts frame factors) {} = .ok plain) :
    operandSeries factors plain.resolved f id = .ok series ↔
      Side engine artifacts frame factors id series := by
  have hlookup : ∀ {g : Factor}, byId factors id = some g → g.type ≠ .interaction →
      plain.resolved.lookup id = (plainSeries engine artifacts frame g).toOption := by
    intro g hg htype
    rw [lookup_of_plainPass hplain]
    have hfilter := byId_filter (p := fun f => decide (f.type ≠ .interaction)) hg (by simpa using htype)
    rw [plainFactors, hfilter]
  constructor
  · intro h
    obtain ⟨g, hg, h⟩ := require_bind_eq_ok.mp h
    obtain ⟨htype, h⟩ := ensure_bind_eq_ok.mp h
    obtain ⟨s, hs, h⟩ := require_bind_eq_ok.mp h
    obtain ⟨hkind, h⟩ := ensure_bind_eq_ok.mp h
    obtain rfl := pure_eq_ok.mp h
    refine ⟨g, hg, htype, ?_, hkind⟩
    rw [hlookup hg htype] at hs
    cases hok : plainSeries engine artifacts frame g with
    | error e =>
      rw [hok] at hs
      cases hs
    | ok t =>
      rw [hok] at hs
      rw [Option.some.inj hs]
  · rintro ⟨g, hg, htype, hseries, hkind⟩
    refine require_bind_eq_ok.mpr ⟨g, hg, ensure_bind_eq_ok.mpr ⟨htype, ?_⟩⟩
    refine require_bind_eq_ok.mpr ⟨series, ?_, ensure_bind_eq_ok.mpr ⟨hkind, rfl⟩⟩
    rw [hlookup hg htype, hseries]
    rfl

variable (engine artifacts frame factors) in
/-- What a resolution takes of one factor. -/
def Resolvable (f : Factor) : Prop := PlainResolvable engine artifacts frame f ∧
  (f.type = .interaction → ∀ id ∈ f.operand_factor_ids,
    ∃ series, Side engine artifacts frame factors id series)

theorem crossPass_ok {plain : Resolution N height}
    (hplain : factors.foldlM (resolvePlain engine artifacts frame factors) {} = .ok plain) :
    ∀ {l : List Factor} {r : Resolution N height}, r.resolved = plain.resolved →
      ((∃ r', l.foldlM (resolveCross engine factors) r = .ok r') ↔ ∀ f ∈ l, f.type = .interaction →
        ∀ id ∈ f.operand_factor_ids, ∃ series, Side engine artifacts frame factors id series)
  | [], r, _ => by simp [List.foldlM, pure, Except.pure]
  | f :: l, r, hr => by
    have hsides : (∃ sides, f.operand_factor_ids.mapM (operandSeries factors r.resolved f) =
        .ok sides) ↔ ∀ id ∈ f.operand_factor_ids,
          ∃ series, Side engine artifacts frame factors id series := by
      rw [exists_mapM_ok_iff, hr]
      simp only [operandSeries_eq_ok hplain]
    rw [List.forall_mem_cons, ← hsides]
    constructor
    · rintro ⟨r', h⟩
      obtain ⟨next, hnext, hrest⟩ := foldlM_cons_eq_ok.mp h
      unfold resolveCross at hnext
      split_ifs at hnext with htype
      · obtain ⟨sides, hsides, hnext⟩ := bind_eq_ok.mp hnext
        obtain rfl := pure_eq_ok.mp hnext
        refine ⟨fun _ => ⟨sides, hsides⟩, (crossPass_ok hplain ?_).mp ⟨r', hrest⟩⟩
        exact hr
      · obtain rfl := Except.ok.inj hnext
        exact ⟨fun h => absurd h htype, (crossPass_ok hplain hr).mp ⟨r', hrest⟩⟩
    · rintro ⟨hf, hl⟩
      by_cases htype : f.type = .interaction
      · obtain ⟨sides, hsides⟩ := hf htype
        let next : Resolution N height := { r with
          produced := r.produced.insert f.slug (.ofTexts (crossed engine sides)) }.withTerm f .levels
        obtain ⟨r', hrest⟩ := (crossPass_ok (r := next) hplain hr).mpr hl
        refine ⟨r', foldlM_cons_eq_ok.mpr ⟨next, ?_, hrest⟩⟩
        rw [resolveCross, if_pos htype]
        exact bind_eq_ok.mpr ⟨sides, hsides, rfl⟩
      · obtain ⟨r', hrest⟩ := (crossPass_ok hplain hr).mpr hl
        refine ⟨r', foldlM_cons_eq_ok.mpr ⟨r, ?_, hrest⟩⟩
        rw [resolveCross, if_neg htype]

/-- A list of factors resolves just where each of them does. -/
theorem resolve_ok : (∃ r, resolveFactorColumns engine artifacts frame factors = .ok r) ↔
    ∀ f ∈ factors, Resolvable engine artifacts frame factors f := by
  constructor
  · rintro ⟨r, h⟩ f hf
    obtain ⟨plain, hplain, hcross⟩ := bind_eq_ok.mp h
    exact ⟨plainPass_ok.mp ⟨plain, hplain⟩ f hf, (crossPass_ok hplain rfl).mp ⟨r, hcross⟩ f hf⟩
  · intro h
    obtain ⟨plain, hplain⟩ := plainPass_ok.mpr fun f hf => (h f hf).1
    obtain ⟨r, hcross⟩ := (crossPass_ok hplain rfl).mpr fun f hf => (h f hf).2
    exact ⟨r, bind_eq_ok.mpr ⟨plain, hplain, hcross⟩⟩

theorem resolve_some {r : Resolution N height} {some_factors : List Factor}
    (h : resolveFactorColumns engine artifacts frame factors = .ok r) (hsub : some_factors ⊆ factors)
    (hoperands : ∀ f ∈ some_factors, f.type = .interaction → ∀ id ∈ f.operand_factor_ids,
      byId some_factors id = byId factors id) :
    ∃ r', resolveFactorColumns engine artifacts frame some_factors = .ok r' := by
  apply resolve_ok.mpr
  intro f hf
  obtain ⟨hplain, hcross⟩ := resolve_ok.mp ⟨r, h⟩ f (hsub hf)
  refine ⟨hplain, fun htype id hid => ?_⟩
  obtain ⟨series, g, hg, hrest⟩ := hcross htype id hid
  exact ⟨series, g, hoperands f hf htype id hid ▸ hg, hrest⟩

theorem resolve_alone {r : Resolution N height} {f : Factor}
    (h : resolveFactorColumns engine artifacts frame factors = .ok r) (hf : f ∈ factors)
    (htype : f.type ≠ .interaction) :
    ∃ r', resolveFactorColumns engine artifacts frame [f] = .ok r' := by
  apply resolve_some h (by simpa using hf)
  intro g hg hcross
  obtain rfl := List.mem_singleton.mp hg
  exact absurd hcross htype

/-! ## The terms -/

def termsOf (l : List Factor) (terms : Dict Column) : Dict Column :=
  l.foldl (fun terms f => terms.insert f.slug f.column) terms

theorem termsOf_append {l m : List Factor} {terms : Dict Column} :
    termsOf (l ++ m) terms = termsOf m (termsOf l terms) := List.foldl_append

theorem termsOf_get? {slug : String} : ∀ {l : List Factor} {terms : Dict Column},
    (termsOf l terms).get? slug =
      ((l.reverse.find? fun f => f.slug = slug).map Factor.column).or (terms.get? slug)
  | [], terms => rfl
  | f :: l, terms => by
    change (termsOf l (terms.insert f.slug f.column)).get? slug = _
    rw [termsOf_get?, Dict.get?_insert, List.reverse_cons, List.find?_append]
    cases l.reverse.find? fun f => decide (f.slug = slug) with
    | some g => rfl
    | none =>
      by_cases h : slug = f.slug
      · simp [h]
      · simp [h, Ne.symm h]

def termFactors (factors : List Factor) : List Factor :=
  (factors.filter fun f => f.type ≠ .interaction ∧ (operandIds factors).contains f.id = false) ++
    factors.filter fun f => f.type = .interaction

theorem mem_termFactors {f : Factor} : f ∈ termFactors factors ↔
    f ∈ factors ∧ (f.type = .interaction ∨ (operandIds factors).contains f.id = false) := by
  simp only [termFactors, List.mem_append, List.mem_filter, decide_eq_true_eq]
  tauto

theorem terms_of_plainPass : ∀ {l : List Factor} {r r' : Resolution N height},
    l.foldlM (resolvePlain engine artifacts frame factors) r = .ok r' →
    r'.terms = termsOf (l.filter fun f => f.type ≠ .interaction ∧
      (operandIds factors).contains f.id = false) r.terms
  | [], r, r', h => by
    obtain rfl := pure_eq_ok.mp h
    rfl
  | f :: l, r, r', h => by
    obtain ⟨next, hnext, hrest⟩ := foldlM_cons_eq_ok.mp h
    obtain ⟨_, -, hnext⟩ := bind_eq_ok.mp hnext
    rw [terms_of_plainPass hrest]
    split_ifs at hnext with htype
    · obtain rfl := pure_eq_ok.mp hnext
      rw [List.filter_cons_of_neg (by simp [htype])]
    · obtain ⟨series, -, hnext⟩ := bind_eq_ok.mp hnext
      obtain rfl := pure_eq_ok.mp hnext
      by_cases hop : (operandIds factors).contains f.id
      · rw [Resolution.withSeries, if_pos hop, List.filter_cons_of_neg (by simp [-List.contains_eq_mem, hop])]
      · rw [Resolution.withSeries, if_neg hop,
          List.filter_cons_of_pos (by simpa [-List.contains_eq_mem, htype] using hop)]
        rfl

omit [LinearOrder F] [Zero F] [One F] in
theorem terms_of_crossPass : ∀ {l : List Factor} {r r' : Resolution N height},
    l.foldlM (resolveCross engine factors) r = .ok r' →
    r'.terms = termsOf (l.filter fun f => f.type = .interaction) r.terms
  | [], r, r', h => by
    obtain rfl := pure_eq_ok.mp h
    rfl
  | f :: l, r, r', h => by
    obtain ⟨next, hnext, hrest⟩ := foldlM_cons_eq_ok.mp h
    rw [terms_of_crossPass hrest]
    unfold resolveCross at hnext
    split_ifs at hnext with htype
    · obtain ⟨sides, -, hnext⟩ := bind_eq_ok.mp hnext
      obtain rfl := pure_eq_ok.mp hnext
      rw [List.filter_cons_of_pos (by simpa using htype)]
      rfl
    · obtain rfl := Except.ok.inj hnext
      rw [List.filter_cons_of_neg (by simpa using htype)]

theorem terms_of_resolve {r : Resolution N height}
    (h : resolveFactorColumns engine artifacts frame factors = .ok r) :
    r.terms = termsOf (termFactors factors) .empty := by
  obtain ⟨plain, hplain, hcross⟩ := bind_eq_ok.mp h
  rw [terms_of_crossPass hcross, terms_of_plainPass hplain, termFactors, termsOf_append]

theorem exists_term {r : Resolution N height}
    (h : resolveFactorColumns engine artifacts frame factors = .ok r) {f : Factor}
    (hf : f ∈ termFactors factors) :
    ∃ column series, r.terms.get? f.slug = some column ∧ r.column frame column = some series := by
  have hsome : (r.terms.get? f.slug).isSome = true := by
    rw [terms_of_resolve h, termsOf_get?, Option.isSome_or, Option.isSome_map, Bool.or_eq_true]
    left
    exact List.find?_isSome.mpr ⟨f, List.mem_reverse.mpr hf, by simp⟩
  obtain ⟨column, hcolumn⟩ := Option.isSome_iff_exists.mp hsome
  have hmade := made_of_resolve h
  obtain ⟨g, hg⟩ := Option.isSome_iff_exists.mp
    (hmade.terms _ ((Dict.get?_eq_some _).mp hcolumn))
  obtain ⟨series, hseries, -⟩ := hmade.column f.slug column g hg
  exact ⟨column, series, hcolumn, hseries⟩

end GiPricing.Factors.Frames
