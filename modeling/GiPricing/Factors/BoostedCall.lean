import GiPricing.Factors.Boosted

/-! # A model call and its model

A model call reads which features have levels off the maps of the fit, where the model reads it off
the values of the factors' columns. The two come to one prediction just where they encode the values
of the call alike.
-/

namespace GiPricing.Factors

open Failure

variable {F : Type} {lib : Libraries F} {result : GbmFitResult} {booster : Booster F}
  {featureMap : Dict String} {context : Context} {row frame : Row} {factors : List Factor} {y : F}

/-! ## The codes of a value -/

variable (lib result) in
/-- The code of a feature's value by the map of the fit, if it has one. -/
def codeByMap (slug : String) (v : Value) : Option F :=
  match result.categorical_maps.get? slug with
  | some levels => ((lib.text v).bind levels.get?).map lib.code
  | none => (lib.number v).toOption

variable (lib result) in
/-- The code of a feature's value by the kind of the value. -/
def codeByKind (slug : String) (v : Value) : Option F :=
  if isLevels v then
    match result.categorical_maps.get? slug with
    | some levels => ((lib.text v).bind levels.get?).map lib.code
    | none => some (lib.code 0)
  else (lib.number v).toOption

variable (result) in
/-- A value of the kind its feature was fitted on. -/
def OfKind (slug : String) (v : Value) : Prop :=
  isLevels v = (result.categorical_maps.get? slug).isSome

theorem codes_eq_of_kind {slug : String} {v : Value} (h : OfKind result slug v) :
    codeByMap lib result slug v = codeByKind lib result slug v := by
  rw [OfKind] at h
  rw [codeByMap, codeByKind, h]
  cases result.categorical_maps.get? slug <;> rfl

theorem toOption_eq_some {ε α : Type} {x : Except ε α} {a : α} : x.toOption = some a ↔ x = .ok a := by
  cases x <;> simp [Except.toOption]

theorem encodeTerm_of_levels {slug : String} {v : Value} {levels : Dict ℤ} {x : F}
    (h : result.categorical_maps.get? slug = some levels) :
    encodeTerm lib result ⟨slug, v, true⟩ = .ok x ↔
      ((lib.text v).bind levels.get?).map lib.code = some x := by
  rw [encodeTerm, if_pos rfl]
  simp only [h, map_eq_ok, require_eq_ok, Option.map_eq_some_iff]

theorem encodeTerm_number {slug : String} {v : Value} {x : F} :
    encodeTerm lib result ⟨slug, v, false⟩ = .ok x ↔ (lib.number v).toOption = some x := by
  rw [encodeTerm, if_neg (by simp), mapError_eq_ok, toOption_eq_some]

theorem encodeTerm_byMap {slug : String} {v : Value} {x : F} :
    encodeTerm lib result ⟨slug, v, (result.categorical_maps.get? slug).isSome⟩ = .ok x ↔
      codeByMap lib result slug v = some x := by
  unfold codeByMap
  cases hmap : result.categorical_maps.get? slug with
  | none => exact encodeTerm_number
  | some levels => exact encodeTerm_of_levels hmap

theorem encodeTerm_byKind {slug : String} {v : Value} {x : F} :
    encodeTerm lib result ⟨slug, v, isLevels v⟩ = .ok x ↔
      codeByKind lib result slug v = some x := by
  unfold codeByKind
  cases hlevels : isLevels v with
  | false =>
    rw [if_neg (by simp)]
    exact encodeTerm_number
  | true =>
    rw [if_pos rfl]
    cases hmap : result.categorical_maps.get? slug with
    | some levels => exact encodeTerm_of_levels hmap
    | none => simp [encodeTerm, hmap]

/-! ## The terms of a row -/

variable (result) in
/-- The vector of the features' codes, where each feature is in the row and has a code. -/
def Encodes (code : String → Value → Option F) (row : Row) (x : List F) : Prop :=
  List.Forall₂ (fun slug a => ∃ v, row.get? slug = some v ∧ code slug v = some a)
    result.feature_order x

theorem encode_terms {levels : String → Value → Bool} {code : String → Value → Option F}
    (hcode : ∀ slug v a, encodeTerm lib result ⟨slug, v, levels slug v⟩ = .ok a ↔
      code slug v = some a)
    (hrow : ∀ slug ∈ result.feature_order, (row.get? slug).isSome = true) {x : List F} :
    (result.feature_order.filterMap fun slug => (row.get? slug).map fun v =>
      (⟨slug, v, levels slug v⟩ : Term)).mapM (encodeTerm lib result) = .ok x ↔
        Encodes result code row x := by
  rw [mapM_eq_ok, Encodes]
  generalize result.feature_order = order at hrow ⊢
  induction order generalizing x with
  | nil => simp
  | cons slug order ih =>
    obtain ⟨hslug, hrest⟩ := List.forall_mem_cons.mp hrow
    obtain ⟨v, hv⟩ := Option.isSome_iff_exists.mp hslug
    rw [List.filterMap_cons, hv]
    simp only [Option.map_some]
    constructor
    · rintro (_ | ⟨ha, hx⟩)
      exact .cons ⟨v, hv, (hcode _ _ _).mp ha⟩ ((ih hrest).mp hx)
    · rintro (_ | ⟨⟨v', hv', ha⟩, hx⟩)
      obtain rfl := Option.some.inj (hv.symm.trans hv')
      exact .cons ((hcode _ _ _).mpr ha) ((ih hrest).mpr hx)

theorem terms_slugs {levels : String → Value → Bool}
    (hrow : ∀ slug ∈ result.feature_order, (row.get? slug).isSome = true) :
    (result.feature_order.filterMap fun slug => (row.get? slug).map fun v =>
      (⟨slug, v, levels slug v⟩ : Term)).map Term.slug = result.feature_order := by
  generalize result.feature_order = order at hrow ⊢
  induction order with
  | nil => rfl
  | cons slug order ih =>
    obtain ⟨hslug, hrest⟩ := List.forall_mem_cons.mp hrow
    obtain ⟨v, hv⟩ := Option.isSome_iff_exists.mp hslug
    rw [List.filterMap_cons, hv]
    simp only [Option.map_some, List.map_cons, ih hrest]

theorem scoreTerms_eq_ok {levels : String → Value → Bool} {code : String → Value → Option F}
    (hcode : ∀ slug v a, encodeTerm lib result ⟨slug, v, levels slug v⟩ = .ok a ↔
      code slug v = some a)
    (hrow : ∀ slug ∈ result.feature_order, (row.get? slug).isSome = true)
    (horder : result.feature_order ≠ []) :
    scoreTerms lib result booster frame (result.feature_order.filterMap fun slug =>
      (row.get? slug).map fun v => (⟨slug, v, levels slug v⟩ : Term)) = .ok y ↔
        ∃ x m, Encodes result code row x ∧ offset lib result frame = .ok m ∧
          finish lib result booster x m = y := by
  have hslugs : (result.feature_order.filterMap fun slug =>
      (row.get? slug).map fun v => (⟨slug, v, levels slug v⟩ : Term)).map Term.slug =
        result.feature_order := terms_slugs hrow
  have hcons : (result.feature_order.filterMap fun slug =>
      (row.get? slug).map fun v => (⟨slug, v, levels slug v⟩ : Term)) ≠ [] := by
    intro hnil
    rw [hnil] at hslugs
    exact horder hslugs.symm
  simp only [scoreTerms, bind_eq_ok, encode_terms hcode hrow, ensure_eq_ok, exists_const, hcons,
    hslugs, ne_eq, not_false_eq_true, true_and, pure_eq_ok]
  exact ⟨fun ⟨x, hx, m, hm, hy⟩ => ⟨x, m, hx, hm, hy⟩, fun ⟨x, m, hx, hm, hy⟩ => ⟨x, hx, m, hm, hy⟩⟩

theorem Encodes.mem_row {code : String → Value → Option F} {x : List F}
    (h : Encodes result code row x) :
    ∀ slug ∈ result.feature_order, (row.get? slug).isSome = true := by
  intro slug hslug
  obtain ⟨a, -, v, hv, -⟩ := exists_of_forall₂ h hslug
  rw [hv]
  rfl

theorem predictGbm_slugs (horder : result.feature_order ≠ []) :
    predictGbm lib result booster row [] = .ok y ↔
      ∃ x m, Encodes result (codeByMap lib result) row x ∧ offset lib result row = .ok m ∧
        finish lib result booster x m = y := by
  rw [predictGbm, if_neg (by simp)]
  constructor
  · intro h
    obtain ⟨hrow, h⟩ := ensure_bind_eq_ok.mp h
    exact (scoreTerms_eq_ok (fun _ _ _ => encodeTerm_byMap) hrow horder).mp h
  · rintro ⟨x, m, hx, hm, hy⟩
    refine ensure_bind_eq_ok.mpr ⟨hx.mem_row, ?_⟩
    exact (scoreTerms_eq_ok (fun _ _ _ => encodeTerm_byMap) hx.mem_row horder).mpr ⟨x, m, hx, hm, hy⟩

/-! ## The terms of identity factors -/

section Identity

variable {num : Numerics F} {r r' : Resolution} {fs : List Factor}

/-- What a factor is resolved on. -/
def Resolvable (frame : Row) (f : Factor) : Prop :=
  (f.prohibited = false ∧ f.intent ≠ .offset ∧ f.intent ≠ .diagnostic ∧
    ∀ c ∈ f.source_columns, (frame.get? c).isSome = true) ∧ (frame.get? f.source).isSome = true

theorem resolvePlain_eq_ok {f : Factor} (hid : ∀ g ∈ factors, g.type = .identity)
    (hf : f.type = .identity) : resolvePlain num frame factors r f = .ok r' ↔
      Resolvable frame f ∧ ∃ v, frame.get? f.source = some v ∧
        r' = ⟨r.produced, r.terms.insert f.slug (.source f.source), (f.id, v) :: r.resolved⟩ := by
  have hoperands : operandIds factors = [] := by
    rw [operandIds, List.filter_eq_nil_iff.mpr, List.flatMap_nil]
    intro g hg
    simp [hid g hg]
  have hcolumn : f.column = .source f.source := if_pos hf
  have hplain : f.type ≠ .interaction := by
    rw [hf]
    decide
  rw [resolvePlain, checkFactor, ensure_bind_eq_ok, if_neg hplain, plainSeries, hf]
  simp only [require_bind_eq_ok, pure_eq_ok, Resolution.withSeries, hf, hoperands, hcolumn, if_true,
    List.contains_nil, Bool.false_eq_true, if_false, Resolvable, and_assoc]
  constructor
  · rintro ⟨h1, h2, h3, h4, v, hv, rfl⟩
    exact ⟨h1, h2, h3, h4, by rw [hv]; rfl, v, hv, rfl⟩
  · rintro ⟨h1, h2, h3, h4, -, v, hv, rfl⟩
    exact ⟨h1, h2, h3, h4, v, hv, rfl⟩

/-- The term of a slug reads the column of a factor of that slug. -/
def NamedBy (fs : List Factor) (r : Resolution) (slug : String) : Prop :=
  ∃ g ∈ fs, g.slug = slug ∧ r.terms.get? slug = some (.source g.source)

theorem resolvePlain_all (hid : ∀ g ∈ factors, g.type = .identity) (hfs : ∀ f ∈ fs, f ∈ factors)
    (h : fs.foldlM (resolvePlain num frame factors) r = .ok r') :
    (∀ f ∈ fs, Resolvable frame f) ∧ ∀ slug, NamedBy fs r' slug ∨
      (∀ f ∈ fs, f.slug ≠ slug) ∧ r'.terms.get? slug = r.terms.get? slug := by
  induction fs generalizing r with
  | nil =>
    cases h
    exact ⟨fun f hf => absurd hf List.not_mem_nil,
      fun slug => Or.inr ⟨fun f hf => absurd hf List.not_mem_nil, rfl⟩⟩
  | cons f fs ih =>
    obtain ⟨hf, hrest⟩ := List.forall_mem_cons.mp hfs
    rw [List.foldlM_cons] at h
    obtain ⟨r₁, h₁, h⟩ := bind_eq_ok.mp h
    obtain ⟨hresolvable, v, -, rfl⟩ := (resolvePlain_eq_ok hid (hid f hf)).mp h₁
    obtain ⟨hall, hterms⟩ := ih hrest h
    refine ⟨List.forall_mem_cons.mpr ⟨hresolvable, hall⟩, fun slug => ?_⟩
    rcases hterms slug with ⟨g, hg, hslug, hterm⟩ | ⟨hnone, hterm⟩
    · exact Or.inl ⟨g, List.mem_cons_of_mem _ hg, hslug, hterm⟩
    · rw [Dict.get?_insert] at hterm
      by_cases hslug : slug = f.slug
      · rw [if_pos hslug] at hterm
        exact Or.inl ⟨f, List.mem_cons_self, hslug.symm, hterm⟩
      · rw [if_neg hslug] at hterm
        exact Or.inr ⟨List.forall_mem_cons.mpr ⟨fun h => hslug h.symm, hnone⟩, hterm⟩

theorem exists_resolvePlain (hid : ∀ g ∈ factors, g.type = .identity) (hfs : ∀ f ∈ fs, f ∈ factors)
    (h : ∀ f ∈ fs, Resolvable frame f) (r : Resolution) :
    ∃ r', fs.foldlM (resolvePlain num frame factors) r = .ok r' := by
  induction fs generalizing r with
  | nil => exact ⟨r, rfl⟩
  | cons f fs ih =>
    obtain ⟨hf, hrest⟩ := List.forall_mem_cons.mp hfs
    obtain ⟨hresolvable, hall⟩ := List.forall_mem_cons.mp h
    obtain ⟨v, hv⟩ := Option.isSome_iff_exists.mp hresolvable.2
    obtain ⟨r', hr'⟩ := ih hrest hall
      ⟨r.produced, r.terms.insert f.slug (.source f.source), (f.id, v) :: r.resolved⟩
    refine ⟨r', ?_⟩
    rw [List.foldlM_cons]
    exact bind_eq_ok.mpr ⟨_, (resolvePlain_eq_ok hid (hid f hf)).mpr ⟨hresolvable, v, hv, rfl⟩, hr'⟩

theorem resolveCross_none (hid : ∀ g ∈ fs, g.type = .identity) (r : Resolution) :
    fs.foldlM (resolveCross num factors) r = .ok r := by
  induction fs generalizing r with
  | nil => rfl
  | cons f fs ih =>
    obtain ⟨hf, hrest⟩ := List.forall_mem_cons.mp hid
    have hstep : resolveCross num factors r f = .ok r := by
      rw [resolveCross, if_neg]
      rw [hf]
      decide
    rw [List.foldlM_cons, hstep]
    exact ih hrest r

theorem resolve_identity (hid : ∀ g ∈ factors, g.type = .identity)
    (h : resolveFactorColumns num frame factors = .ok r) :
    (∀ f ∈ factors, Resolvable frame f) ∧ ∀ f ∈ factors, NamedBy factors r f.slug := by
  obtain ⟨plain, hplain, h⟩ := bind_eq_ok.mp h
  rw [resolveCross_none hid] at h
  cases h
  obtain ⟨hall, hterms⟩ := resolvePlain_all hid (fun _ hf => hf) hplain
  refine ⟨hall, fun f hf => (hterms f.slug).resolve_right fun hnone => hnone.1 f hf rfl⟩

theorem exists_resolve (hid : ∀ g ∈ factors, g.type = .identity)
    (h : ∀ f ∈ factors, Resolvable frame f) :
    ∃ r, resolveFactorColumns num frame factors = .ok r := by
  obtain ⟨plain, hplain⟩ : ∃ plain, factors.foldlM (resolvePlain num frame factors) {} = .ok plain :=
    exists_resolvePlain hid (fun _ hf => hf) h {}
  exact ⟨plain, bind_eq_ok.mpr ⟨plain, hplain, resolveCross_none hid plain⟩⟩

end Identity

/-! ## A pinned model and its call -/

/-- A fitted model with the factors it was fitted on: identity factors are the features, in their
order. -/
structure FittedGbm where
  result : GbmFitResult
  factors : List Factor
  factors_ne_nil : factors ≠ []
  order_eq : (∀ f ∈ factors, f.type = .identity) → result.feature_order = factors.map Factor.slug
  fitted : ∀ f ∈ factors, f.prohibited = false ∧ f.intent ≠ .offset ∧ f.intent ≠ .diagnostic ∧
    (f.type = .identity → f.source_columns ≠ [])

variable {model : FittedGbm}

def BaseMargin.name (margin : BaseMargin) : String := margin.column.getD "None"

/-- A row that gives each factor's source column the value of the factor's slug, and the column of
the margin its own value. -/
structure OneRow (model : FittedGbm) (row frame : Row) : Prop where
  sources : ∀ f ∈ model.factors, ∀ c ∈ f.source_columns, frame.get? c = row.get? f.slug
  margin : (row.get? model.result.base_margin.name).isSome = true ∨
    (∀ f ∈ model.factors, model.result.base_margin.name ∉ f.source_columns) →
      frame.get? model.result.base_margin.name = row.get? model.result.base_margin.name

/-- What the compilation of a bundle accepts of a step that calls the model. -/
structure CallAccepted (model : FittedGbm) (featureMap : Dict String) : Prop where
  coverage : checkModelCallCoverage model.result model.factors featureMap = .ok ⟨⟩
  factors : checkModelCallGbmFactors model.factors = .ok ⟨⟩

theorem CallAccepted.identity (h : CallAccepted model featureMap) :
    ∀ f ∈ model.factors, f.type = .identity := by
  have hnone := List.filter_eq_nil_iff.mp (ensure_eq_ok.mp h.factors)
  intro f hf
  simpa using hnone f hf

theorem CallAccepted.order_eq (h : CallAccepted model featureMap) :
    model.result.feature_order = model.factors.map Factor.slug := model.order_eq h.identity

theorem CallAccepted.order_ne_nil (h : CallAccepted model featureMap) : model.result.feature_order ≠ [] := by
  rw [h.order_eq]
  exact fun hnil => model.factors_ne_nil (List.map_eq_nil_iff.mp hnil)

theorem CallAccepted.mapped (h : CallAccepted model featureMap) :
    ∀ slug ∈ model.result.feature_order, ∃ name, (name, slug) ∈ featureMap.entries := by
  intro slug hslug
  obtain ⟨-, hcoverage⟩ := ensure_bind_eq_ok.mp h.coverage
  have hmissing := List.filter_eq_nil_iff.mp (ensure_eq_ok.mp hcoverage)
  have hrequired : slug ∈ requiredModelInputs model.factors
      model.result.feature_order.eraseDups := by
    rw [requiredModelInputs, if_neg model.factors_ne_nil, List.mem_eraseDups, List.mem_flatMap]
    rw [h.order_eq, List.mem_map] at hslug
    obtain ⟨f, hf, rfl⟩ := hslug
    refine ⟨f, hf, ?_⟩
    rw [if_neg (by rw [h.identity f hf]; decide)]
    exact List.mem_singleton.mpr rfl
  have hvalue : slug ∈ featureMap.values := by simpa using hmissing slug hrequired
  obtain ⟨⟨name, slug'⟩, he, rfl⟩ := List.mem_map.mp hvalue
  exact ⟨name, he⟩

theorem foldl_supplied_isSome {slug : String} (entries : List (String × String)) (row : Row) :
    ((entries.foldl (fun row e => (context e.1).elim row (row.insert e.2)) row).get? slug).isSome =
        true ↔
      (row.get? slug).isSome = true ∨ ∃ e ∈ entries, e.2 = slug ∧ (context e.1).isSome = true := by
  induction entries generalizing row with
  | nil => simp
  | cons e entries ih =>
    rw [List.foldl_cons, ih, List.exists_mem_cons_iff, ← or_assoc]
    refine or_congr_left ?_
    cases hv : context e.1 with
    | none => simp
    | some v =>
      rw [Option.elim_some, Dict.get?_insert]
      split_ifs with h
      · simp [h]
      · have h' : ¬ e.2 = slug := fun heq => h heq.symm
        simp [h']

theorem suppliedRow_isSome {slug : String} :
    ((suppliedRow featureMap context).get? slug).isSome = true ↔
      ∃ e ∈ featureMap.entries, e.2 = slug ∧ (context e.1).isSome = true := by
  have hempty : (Dict.empty (α := Value)).get? slug = none := rfl
  rw [suppliedRow, foldl_supplied_isSome, hempty]
  simp

theorem CallAccepted.supplied (h : CallAccepted model featureMap)
    (habsent : absentNames model.result.feature_order featureMap context = []) :
    ∀ slug ∈ model.result.feature_order,
      ((suppliedRow featureMap context).get? slug).isSome = true := by
  intro slug hslug
  obtain ⟨name, he⟩ := h.mapped slug hslug
  refine suppliedRow_isSome.mpr ⟨_, he, rfl, ?_⟩
  have hnot := List.filter_eq_nil_iff.mp (List.map_eq_nil_iff.mp habsent) _ he
  cases hcontext : context name with
  | some v => rfl
  | none => simp [hcontext, hslug] at hnot

theorem callGbm_eq_ok (h : CallAccepted model featureMap) :
    callGbm lib model.result booster featureMap context = .ok y ↔
      absentNames model.result.feature_order featureMap context = [] ∧
        ∃ x m, Encodes model.result (codeByMap lib model.result) (suppliedRow featureMap context) x ∧
          offset lib model.result (suppliedRow featureMap context) = .ok m ∧
            finish lib model.result booster x m = y := by
  rw [callGbm, ensure_bind_eq_ok, mapError_eq_ok]
  refine and_congr_right fun habsent => ?_
  have hcons : (suppliedRow featureMap context).entries ≠ [] := by
    obtain ⟨slug, hslug⟩ := List.exists_mem_of_ne_nil _ h.order_ne_nil
    have hsome := h.supplied habsent slug hslug
    intro hnil
    rw [Dict.get?, hnil] at hsome
    cases hsome
  rw [predictModel, if_pos hcons]
  exact predictGbm_slugs h.order_ne_nil

theorem factorTerms_eq (h : CallAccepted model featureMap) (hframe : OneRow model row frame)
    {r : Resolution} (hr : resolveFactorColumns lib.toNumerics frame model.factors = .ok r) :
    factorTerms frame r model.factors = model.result.feature_order.filterMap fun slug =>
      (row.get? slug).map fun v => ⟨slug, v, isLevels v⟩ := by
  obtain ⟨-, hnamed⟩ := resolve_identity h.identity hr
  rw [h.order_eq, List.filterMap_map, factorTerms]
  apply List.filterMap_congr
  intro f hf
  obtain ⟨g, hg, hslug, hterm⟩ := hnamed f hf
  have hsource : frame.get? g.source = row.get? f.slug := by
    rw [← hslug]
    refine hframe.sources g hg g.source ?_
    obtain ⟨c, cs, hc⟩ := List.exists_cons_of_ne_nil ((model.fitted g hg).2.2.2 (h.identity g hg))
    rw [Factor.source, hc]
    exact List.mem_cons_self
  rw [Function.comp_apply, hterm, Option.bind_some, Resolution.column, hsource]

/-- The model predicts on the values supplied for its factors. -/
theorem predictGbm_factors (h : CallAccepted model featureMap) (hframe : OneRow model row frame) :
    predictGbm lib model.result booster frame model.factors = .ok y ↔
      ∃ x m, Encodes model.result (codeByKind lib model.result) row x ∧
        offset lib model.result frame = .ok m ∧ finish lib model.result booster x m = y := by
  rw [predictGbm, if_pos model.factors_ne_nil, bind_eq_ok]
  have hsources : ∀ f ∈ model.factors, Resolvable frame f ↔ (row.get? f.slug).isSome = true := by
    intro f hf
    obtain ⟨hprohibited, hoffset, hdiagnostic, hcolumns⟩ := model.fitted f hf
    obtain ⟨c, cs, hc⟩ := List.exists_cons_of_ne_nil (hcolumns (h.identity f hf))
    have hsource := hframe.sources f hf c (by rw [hc]; exact List.mem_cons_self)
    rw [Resolvable, Factor.source, hc, List.headD_cons, hsource, ← hc]
    refine ⟨fun hres => hres.2, fun hsome => ⟨⟨hprohibited, hoffset, hdiagnostic, fun c' hc' => ?_⟩, hsome⟩⟩
    rw [hframe.sources f hf c' hc']
    exact hsome
  have hrow : (∀ f ∈ model.factors, Resolvable frame f) ↔
      ∀ slug ∈ model.result.feature_order, (row.get? slug).isSome = true := by
    rw [h.order_eq, List.forall_mem_map]
    exact forall₂_congr hsources
  constructor
  · rintro ⟨r, hr, hscore⟩
    have hr := mapError_eq_ok.mp hr
    rw [factorTerms_eq h hframe hr] at hscore
    exact (scoreTerms_eq_ok (fun _ _ _ => encodeTerm_byKind)
      (hrow.mp (resolve_identity h.identity hr).1) h.order_ne_nil).mp hscore
  · rintro ⟨x, m, hx, hm, hy⟩
    obtain ⟨r, hr⟩ : ∃ r, resolveFactorColumns lib.toNumerics frame model.factors = .ok r :=
      exists_resolve h.identity (hrow.mpr hx.mem_row)
    refine ⟨r, mapError_eq_ok.mpr hr, ?_⟩
    rw [factorTerms_eq h hframe hr]
    exact (scoreTerms_eq_ok (fun _ _ _ => encodeTerm_byKind) hx.mem_row h.order_ne_nil).mpr
      ⟨x, m, hx, hm, hy⟩

/-! ## Where the call is the model's prediction -/

section Codes

variable {code code' : String → Value → Option F} {x x' : List F}

/-- Each feature is supplied with a value that has a code. -/
def Encodable (result : GbmFitResult) (code : String → Value → Option F) (row : Row) : Prop :=
  ∀ slug ∈ result.feature_order, ∃ v, row.get? slug = some v ∧ (code slug v).isSome = true

theorem exists_encodes : (∃ x, Encodes result code row x) ↔ Encodable result code row := by
  rw [Encodable]
  unfold Encodes
  constructor
  · rintro ⟨x, hx⟩ slug hslug
    obtain ⟨a, -, v, hv, ha⟩ := exists_of_forall₂ hx hslug
    exact ⟨v, hv, by rw [ha]; rfl⟩
  · intro h
    generalize result.feature_order = order at h
    induction order with
    | nil => exact ⟨[], .nil⟩
    | cons slug order ih =>
      obtain ⟨⟨v, hv, hcode⟩, hrest⟩ := List.forall_mem_cons.mp h
      obtain ⟨a, ha⟩ := Option.isSome_iff_exists.mp hcode
      obtain ⟨x, hx⟩ := ih hrest
      exact ⟨a :: x, .cons ⟨v, hv, ha⟩ hx⟩

theorem Encodes.eq_iff (h : Encodes result code row x) (h' : Encodes result code' row x') :
    x = x' ↔ ∀ slug ∈ result.feature_order, ∀ v, row.get? slug = some v →
      code slug v = code' slug v := by
  unfold Encodes at h h'
  generalize result.feature_order = order at h h'
  induction h generalizing x' with
  | nil =>
    cases h'
    simp
  | @cons slug a order x ha hx ih =>
    obtain ⟨v, hv, ha⟩ := ha
    cases h' with
    | @cons _ a' _ x' ha' hx' =>
      obtain ⟨v', hv', ha'⟩ := ha'
      obtain rfl := Option.some.inj (hv.symm.trans hv')
      rw [List.cons.injEq, ih hx', List.forall_mem_cons]
      refine and_congr_left fun _ => ⟨fun heq w hw => ?_, fun heq => ?_⟩
      · obtain rfl := Option.some.inj (hv.symm.trans hw)
        rw [ha, ha', heq]
      · have := heq v hv
        rw [ha, ha'] at this
        exact Option.some.inj this

end Codes

variable (lib) in
/-- The call is not refused: no required name is absent, each feature has a code by the fit's maps,
and the margin can be made of the values supplied. -/
def CallTakes (model : FittedGbm) (featureMap : Dict String) (context : Context) : Prop :=
  absentNames model.result.feature_order featureMap context = [] ∧
    Encodable model.result (codeByMap lib model.result) (suppliedRow featureMap context) ∧
      ∃ m, offset lib model.result (suppliedRow featureMap context) = .ok m

variable (lib) in
/-- The model does not refuse the row: each feature has a code by the kind of its value, and the
margin can be made of the row. -/
def ModelTakes (model : FittedGbm) (row frame : Row) : Prop :=
  Encodable model.result (codeByKind lib model.result) row ∧
    ∃ m, offset lib model.result frame = .ok m

variable (lib result) in
/-- Whatever the booster answers, the prediction at a margin is one number. -/
def Absorbs (margin : Option F) : Prop :=
  ∀ a b : F, finish lib result (fun _ _ => a) [] margin = finish lib result (fun _ _ => b) [] margin

theorem finish_congr {booster' : Booster F} {x x' : List F} (h : booster x = booster' x')
    (margin : Option F) :
    finish lib result booster x margin = finish lib result booster' x' margin := by
  simp only [finish, h]

theorem finish_eq (x : List F) (margin : Option F) : ∃ a,
    finish lib result booster x margin = finish lib result (fun _ _ => a) [] margin := by
  cases hbackend : result.model_type with
  | xgboost => exact ⟨booster x margin, by simp only [finish, hbackend]⟩
  | lightgbm => exact ⟨booster x none, by simp only [finish, hbackend]⟩

theorem offset_frame (hframe : OneRow model row frame) {m : Option F}
    (h : offset lib model.result row = .ok m) : offset lib model.result frame = .ok m := by
  rw [offset] at h ⊢
  split_ifs at h ⊢ with hnone hcolumn
  · exact h
  all_goals
    obtain ⟨value, hvalue, h⟩ := require_bind_eq_ok.mp h
    have hname : model.result.base_margin.name = model.result.base_margin.column.getD "None" := rfl
    have hsame := hframe.margin (Or.inl (by rw [hname, hvalue]; rfl))
    rw [hname, hvalue] at hsame
    exact require_bind_eq_ok.mpr ⟨value, hsame, h⟩

theorem eq_or_absorbs {x x' : List F} {m : Option F}
    (h : ∀ booster, finish lib result booster x m = finish lib result booster x' m) :
    x = x' ∨ Absorbs lib result m := by
  classical
  by_cases hx : x = x'
  · exact Or.inl hx
  · refine Or.inr fun a b => ?_
    have hchoice := h fun z _ => if z = x then a else b
    have ha : (fun (z : List F) (_ : Option F) => if z = x then a else b) x = fun _ => a := by
      simp
    have hb : (fun (z : List F) (_ : Option F) => if z = x then a else b) x' = fun _ => b := by
      simp [Ne.symm hx]
    calc finish lib result (fun _ _ => a) [] m
        = finish lib result (fun z _ => if z = x then a else b) x m := (finish_congr ha m).symm
      _ = finish lib result (fun z _ => if z = x then a else b) x' m := hchoice
      _ = finish lib result (fun _ _ => b) [] m := finish_congr hb m

theorem CallTakes.eq (h : CallAccepted model featureMap)
    (htakes : CallTakes lib model featureMap context) :
    ∃ x m, Encodes model.result (codeByMap lib model.result) (suppliedRow featureMap context) x ∧
      offset lib model.result (suppliedRow featureMap context) = .ok m ∧
        ∀ booster, callGbm lib model.result booster featureMap context =
          .ok (finish lib model.result booster x m) := by
  obtain ⟨habsent, hencodable, m, hm⟩ := htakes
  obtain ⟨x, hx⟩ := exists_encodes.mpr hencodable
  exact ⟨x, m, hx, hm, fun booster => (callGbm_eq_ok h).mpr ⟨habsent, x, m, hx, hm, rfl⟩⟩

theorem ModelTakes.eq (h : CallAccepted model featureMap) (hframe : OneRow model row frame)
    (htakes : ModelTakes lib model row frame) :
    ∃ x m, Encodes model.result (codeByKind lib model.result) row x ∧
      offset lib model.result frame = .ok m ∧
        ∀ booster, predictGbm lib model.result booster frame model.factors =
          .ok (finish lib model.result booster x m) := by
  obtain ⟨hencodable, m, hm⟩ := htakes
  obtain ⟨x, hx⟩ := exists_encodes.mpr hencodable
  exact ⟨x, m, hx, hm, fun booster => (predictGbm_factors h hframe).mpr ⟨x, m, hx, hm, rfl⟩⟩

theorem callTakes_iff (h : CallAccepted model featureMap) :
    (callGbm lib model.result booster featureMap context).toOption.isSome = true ↔
      CallTakes lib model featureMap context := by
  rw [Option.isSome_iff_exists]
  constructor
  · rintro ⟨y, hy⟩
    obtain ⟨habsent, x, m, hx, hm, -⟩ := (callGbm_eq_ok h).mp (toOption_eq_some.mp hy)
    exact ⟨habsent, exists_encodes.mp ⟨x, hx⟩, m, hm⟩
  · intro htakes
    obtain ⟨x, m, -, -, heq⟩ := htakes.eq h
    exact ⟨_, toOption_eq_some.mpr (heq booster)⟩

theorem modelTakes_iff (h : CallAccepted model featureMap) (hframe : OneRow model row frame) :
    (predictGbm lib model.result booster frame model.factors).toOption.isSome = true ↔
      ModelTakes lib model row frame := by
  rw [Option.isSome_iff_exists]
  constructor
  · rintro ⟨y, hy⟩
    obtain ⟨x, m, hx, hm, -⟩ := (predictGbm_factors h hframe).mp (toOption_eq_some.mp hy)
    exact ⟨exists_encodes.mp ⟨x, hx⟩, m, hm⟩
  · intro htakes
    obtain ⟨x, m, -, -, heq⟩ := htakes.eq h hframe
    exact ⟨_, toOption_eq_some.mpr (heq booster)⟩

/-- The value of a call is the prediction of its model, whatever the booster answers, just where the
two refuse the same calls and encode the values of each alike. -/
theorem callGbm_agrees_iff (h : CallAccepted model featureMap)
    (hframe : OneRow model (suppliedRow featureMap context) frame) :
    (∀ booster : Booster F, (callGbm lib model.result booster featureMap context).toOption =
      (predictGbm lib model.result booster frame model.factors).toOption) ↔
    (CallTakes lib model featureMap context ↔
      ModelTakes lib model (suppliedRow featureMap context) frame) ∧
    (CallTakes lib model featureMap context →
      (∀ slug ∈ model.result.feature_order, ∀ v,
        (suppliedRow featureMap context).get? slug = some v →
          codeByMap lib model.result slug v = codeByKind lib model.result slug v) ∨
      ∀ m, offset lib model.result (suppliedRow featureMap context) = .ok m →
        Absorbs lib model.result m) := by
  constructor
  · intro hagree
    have htakes : CallTakes lib model featureMap context ↔
        ModelTakes lib model (suppliedRow featureMap context) frame := by
      have hzero := hagree fun _ _ => lib.zero
      rw [← callTakes_iff h, ← modelTakes_iff h hframe, hzero]
    refine ⟨htakes, fun hcall => ?_⟩
    obtain ⟨x, m, hx, hm, hvalue⟩ := hcall.eq h
    obtain ⟨x', m', hx', hm', hvalue'⟩ := (htakes.mp hcall).eq h hframe
    obtain rfl : m = m' := Except.ok.inj ((offset_frame hframe hm).symm.trans hm')
    have hfinish : ∀ booster, finish lib model.result booster x m =
        finish lib model.result booster x' m := by
      intro booster
      have := hagree booster
      rw [hvalue booster, hvalue' booster] at this
      exact Option.some.inj this
    refine (eq_or_absorbs hfinish).imp (hx.eq_iff hx').mp fun habsorbs m' hm' => ?_
    obtain rfl : m = m' := Except.ok.inj (hm.symm.trans hm')
    exact habsorbs
  · rintro ⟨htakes, hcodes⟩ booster
    by_cases hcall : CallTakes lib model featureMap context
    · obtain ⟨x, m, hx, hm, hvalue⟩ := hcall.eq h
      obtain ⟨x', m', hx', hm', hvalue'⟩ := (htakes.mp hcall).eq h hframe
      obtain rfl : m = m' := Except.ok.inj ((offset_frame hframe hm).symm.trans hm')
      rw [hvalue booster, hvalue' booster]
      rcases hcodes hcall with hsame | habsorbs
      · rw [(hx.eq_iff hx').mpr hsame]
        rfl
      · obtain ⟨a, ha⟩ : ∃ a, finish lib model.result booster x m =
            finish lib model.result (fun _ _ => a) [] m := finish_eq x m
        obtain ⟨b, hb⟩ : ∃ b, finish lib model.result booster x' m =
            finish lib model.result (fun _ _ => b) [] m := finish_eq x' m
        rw [ha, hb, habsorbs m hm a b]
        rfl
    · have hnone : (callGbm lib model.result booster featureMap context).toOption = none := by
        rw [← Option.not_isSome_iff_eq_none, callTakes_iff h]
        exact hcall
      have hnone' : (predictGbm lib model.result booster frame model.factors).toOption = none := by
        rw [← Option.not_isSome_iff_eq_none, modelTakes_iff h hframe, ← htakes]
        exact hcall
      rw [hnone, hnone']

/-! ## A number written as a text -/

section Example

/-- Exact numbers, where a text that writes one is read as it. -/
def exactLibraries : Libraries ℚ where
  zero := 0
  one := 1
  add := (· + ·)
  mul := (· * ·)
  number v := require (v.asDecimal.bind Decimal.Number.toRat?) (.prediction "VALUE_NOT_NUMBER")
  levelText
    | .text s => s
    | _ => ""
  indicator v level := if v = .text level then 1 else 0
  logOf _ := .error (.prediction "MODEL_OFFSET_MISSING")
  isFinite _ := true
  inverseLink _ eta := .ok eta
  derive f _ := .error (.factorResolution f.slug)
  sameValue v w := v = w
  exact n := some n
  text
    | .text s => some s
    | .int n => some (toString n)
    | _ => none
  code n := n
  log n := n
  notPositive n := n ≤ 0
  link _ n := n

def ageFactor : Factor := { id := 1, slug := "age", type := .identity,
                            source_columns := ["driver_age"], slug_ok := by decide }

/-- A model of the driver's age, a number. -/
def ageModel : FittedGbm where
  result := { model_type := .xgboost, feature_order := ["age"], categorical_maps := .empty,
              base_margin := ⟨.none, none⟩ }
  factors := [ageFactor]
  factors_ne_nil := List.cons_ne_nil _ _
  order_eq _ := rfl
  fitted f hf := by
    obtain rfl := List.mem_singleton.mp hf
    decide

def ageMap : Dict String := ⟨[("age_in", "age")], by simp⟩

def ageContext (v : Value) : Context := fun name => if name = "age_in" then some v else none

def ageRow (v : Value) : Row := ⟨[("driver_age", v)], by simp⟩

theorem ageMap_accepted : CallAccepted ageModel ageMap where
  coverage := by rfl
  factors := by rfl

theorem ageRow_oneRow (v : Value) :
    OneRow ageModel (suppliedRow ageMap (ageContext v)) (ageRow v) where
  sources f hf c hc := by
    obtain rfl := List.mem_singleton.mp hf
    obtain rfl := List.mem_singleton.mp hc
    rfl
  margin _ := by rfl

theorem ageNumber_agrees : CallAccepted ageModel ageMap ∧ ∀ booster : Booster ℚ,
    (callGbm exactLibraries ageModel.result booster ageMap (ageContext (.int 30))).toOption =
      (predictGbm exactLibraries ageModel.result booster (ageRow (.int 30))
        ageModel.factors).toOption := by
  refine ⟨ageMap_accepted, ?_⟩
  refine (callGbm_agrees_iff ageMap_accepted (ageRow_oneRow _)).mpr ⟨?_, fun _ => Or.inl ?_⟩
  · refine iff_of_true ⟨rfl, ?_, none, rfl⟩ ⟨?_, none, rfl⟩
    all_goals
      intro slug hslug
      obtain rfl := List.mem_singleton.mp hslug
      exact ⟨.int 30, rfl, rfl⟩
  · intro slug hslug v hv
    obtain rfl := List.mem_singleton.mp hslug
    cases hv
    exact codes_eq_of_kind rfl

/-- The age as a text is read as the number by the call, and as the first level by the model. -/
theorem ageText_differs : CallAccepted ageModel ageMap ∧
    OneRow ageModel (suppliedRow ageMap (ageContext (.text "30"))) (ageRow (.text "30")) ∧
    (callGbm exactLibraries ageModel.result (fun x _ => x.sum) ageMap
      (ageContext (.text "30"))).toOption = some 30 ∧
    (predictGbm exactLibraries ageModel.result (fun x _ => x.sum) (ageRow (.text "30"))
      ageModel.factors).toOption = some 0 :=
  ⟨ageMap_accepted, ageRow_oneRow _, by with_unfolding_all decide, by with_unfolding_all decide⟩

end Example

end GiPricing.Factors
