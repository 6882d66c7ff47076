import GiPricing.Factors.Control
import GiPricing.Failure.Lists

/-! # What a control factor changes

Two quotes that agree on everything but control factors are resolved side by side: a column they
differ in is a control factor's, or that of a cross of one. An accepted model reads no such column
unless a cross it consumes, or another factor under a slug it consumes, brings one in.
-/

namespace GiPricing.Factors

open Failure Decimal

variable {F : Type} {num : Numerics F}

/-! ## Quotes that differ in control factors only -/

/-- Two rows on which every factor of a GLM that is not a control factor has the same series, and
the offset the same cell. -/
structure AlikeRows (num : Numerics F) (g : Glm F) (row row' : Row) : Prop where
  series : ∀ f ∈ g.factors, f.type ≠ .interaction → f.intent ≠ .control →
    plainSeries num row f = plainSeries num row' f
  offset : ∀ name, g.offset = .column name ∨ g.offset = .logColumn name →
    row.get? name = row'.get? name

/-- Rows alike for a model, and for the models that its offset reads. -/
def PinnedModel.AlikeOn (num : Numerics F) (row row' : Row) : PinnedModel F → Prop
  | glm g => AlikeRows num g row row'
  | glmOver g offsetSource => AlikeRows num g row row' ∧ offsetSource.AlikeOn num row row'
  | gbm _ => True

/-- Two quotes that differ, for a model, in its control factors only. -/
def PinnedModel.Alike (num : Numerics F) (q q' : Quote) (m : PinnedModel F) : Prop := match m with
  | gbm fit => ∀ slug ∈ fit.feature_order,
      (∀ f ∈ fit.factors, f.slug = slug → f.intent ≠ .control) → q.cell slug = q'.cell slug
  | m => ∀ row row', featureRow num m.columns q.features = .ok row →
      featureRow num m.columns q'.features = .ok row' → m.AlikeOn num row row'

/-- No control factor changes the value of a call: quotes that differ in control factors only have
one value. -/
def ModelCall.Unaffected (num : Numerics F) (call : ModelCall F) : Prop :=
  ∀ q q' v v', (∀ m ∈ call.models, m.Alike num q q') → call.value num q = .ok v →
    call.value num q' = .ok v' → v = v'

/-- No factor under a consumed slug crosses a control factor, and no control factor there is hidden
by another factor of its slug. -/
def CleanFactors (factors : List Factor) (consumed : List String) : Prop :=
  ∀ f ∈ factors, f.slug ∈ consumed → (f.intent = .control → bySlug factors f.slug = some f) ∧
    (f.type = .interaction → ∀ h ∈ factors, h.id ∈ f.operand_factor_ids → h.intent ≠ .control)

def PinnedModel.Clean : PinnedModel F → Prop
  | glm g => CleanFactors g.factors (PinnedModel.glm g).consumed
  | glmOver g offsetSource =>
    CleanFactors g.factors (PinnedModel.glmOver g offsetSource).consumed ∧ offsetSource.Clean
  | gbm fit => CleanFactors fit.factors (PinnedModel.gbm fit).consumed

/-! ## Two resolutions side by side -/

section Resolutions

variable {factors : List Factor} {row row' : Row} {r r' : Resolution}

/-- A control factor, or a cross of one. -/
def Tainted (factors : List Factor) (f : Factor) : Prop :=
  f.intent = .control ∨
    (f.type = .interaction ∧ ∃ h ∈ factors, h.id ∈ f.operand_factor_ids ∧ h.intent = .control)

/-- Resolutions that name the same columns, of which the produced ones differ under the slugs of
tainted factors only. -/
structure AlikeResolutions (factors : List Factor) (r r' : Resolution) : Prop where
  terms : r.terms = r'.terms
  named : ∀ slug column, r.terms.get? slug = some column →
    ∃ f ∈ factors, f.slug = slug ∧ f.column = column
  produced : ∀ slug, r.produced.get? slug = r'.produced.get? slug ∨
    ∃ f ∈ factors, f.slug = slug ∧ Tainted factors f
  resolved : ∀ id, r.resolved.lookup id = r'.resolved.lookup id ∨
    ∃ f ∈ factors, f.id = id ∧ f.intent = .control

theorem alike_start : AlikeResolutions factors {} {} where
  terms := rfl
  named _ _ h := by cases h
  produced _ := Or.inl rfl
  resolved _ := Or.inl rfl

theorem produced_insert {f : Factor} {v v' : Value} (h : AlikeResolutions factors r r')
    (hf : f ∈ factors) (hv : v = v' ∨ Tainted factors f) (slug : String) :
    (r.produced.insert f.slug v).get? slug = (r'.produced.insert f.slug v').get? slug ∨
      ∃ f ∈ factors, f.slug = slug ∧ Tainted factors f := by
  rw [Dict.get?_insert, Dict.get?_insert]
  by_cases hs : slug = f.slug
  · rcases hv with rfl | ht
    · exact Or.inl (by simp [hs])
    · exact Or.inr ⟨f, hf, hs.symm, ht⟩
  · simpa [hs] using h.produced slug

theorem named_insert {f : Factor} (h : AlikeResolutions factors r r') (hf : f ∈ factors)
    {slug : String} {column : Column}
    (hc : (r.terms.insert f.slug f.column).get? slug = some column) :
    ∃ f ∈ factors, f.slug = slug ∧ f.column = column := by
  rw [Dict.get?_insert] at hc
  split_ifs at hc with hs
  · exact ⟨f, hf, hs.symm, Option.some.inj hc⟩
  · exact h.named slug column hc

/-- One factor of the first pass. -/
theorem AlikeResolutions.withSeries {f : Factor} {v v' : Value} (h : AlikeResolutions factors r r')
    (hf : f ∈ factors) (hv : v = v' ∨ f.intent = .control) :
    AlikeResolutions factors (r.withSeries factors f v) (r'.withSeries factors f v') where
  terms := by
    simp only [Resolution.withSeries, h.terms]
  named slug column hc := by
    simp only [Resolution.withSeries] at hc
    split_ifs at hc
    · exact h.named slug column hc
    · exact named_insert h hf hc
  produced slug := by
    simp only [Resolution.withSeries]
    split_ifs
    · exact h.produced slug
    · exact produced_insert h hf (hv.imp id Or.inl) slug
  resolved id := by
    simp only [Resolution.withSeries, List.lookup_cons]
    by_cases hid : id = f.id
    · rcases hv with rfl | hcontrol
      · exact Or.inl (by simp [hid])
      · exact Or.inr ⟨f, hf, hid.symm, hcontrol⟩
    · have hne : (id == f.id) = false := beq_false_of_ne hid
      simpa only [hne] using h.resolved id

theorem alike_resolvePlain {f : Factor} {s s' : Resolution} (h : AlikeResolutions factors r r')
    (hf : f ∈ factors)
    (hseries : f.type ≠ .interaction → f.intent ≠ .control →
      plainSeries num row f = plainSeries num row' f)
    (hs : resolvePlain num row factors r f = .ok s)
    (hs' : resolvePlain num row' factors r' f = .ok s') :
    AlikeResolutions factors s s' := by
  obtain ⟨-, -, hs⟩ := bind_eq_ok.mp hs
  obtain ⟨-, -, hs'⟩ := bind_eq_ok.mp hs'
  by_cases ht : f.type = .interaction
  · rw [if_pos ht] at hs hs'
    cases hs
    cases hs'
    exact h
  · rw [if_neg ht] at hs hs'
    obtain ⟨v, hv, hs⟩ := bind_eq_ok.mp hs
    obtain ⟨v', hv', hs'⟩ := bind_eq_ok.mp hs'
    cases hs
    cases hs'
    refine h.withSeries hf ?_
    by_cases hc : f.intent = .control
    · exact Or.inr hc
    · rw [hseries ht hc, hv'] at hv
      exact Or.inl (Except.ok.inj hv).symm

/-- One factor of the second pass: a cross that differs crosses a control factor. -/
theorem alike_resolveCross {f : Factor} {s s' : Resolution} (h : AlikeResolutions factors r r')
    (hf : f ∈ factors) (hs : resolveCross num factors r f = .ok s)
    (hs' : resolveCross num factors r' f = .ok s') : AlikeResolutions factors s s' := by
  unfold resolveCross at hs hs'
  by_cases ht : f.type = .interaction
  · rw [if_pos ht] at hs hs'
    obtain ⟨levels, hl, hs⟩ := bind_eq_ok.mp hs
    obtain ⟨levels', hl', hs'⟩ := bind_eq_ok.mp hs'
    cases hs
    cases hs'
    have hlevels : levels = levels' ∨ Tainted factors f := by
      by_cases hc : ∃ g ∈ factors, g.id ∈ f.operand_factor_ids ∧ g.intent = .control
      · exact Or.inr (Or.inr ⟨ht, hc⟩)
      · have hsame : ∀ id ∈ f.operand_factor_ids,
            operandLevel num factors r f id = operandLevel num factors r' f id := by
          intro id hid
          rcases h.resolved id with heq | ⟨g, hg, rfl, hcontrol⟩
          · simp only [operandLevel, heq]
          · exact absurd ⟨g, hg, hid, hcontrol⟩ hc
        rw [mapM_same hsame, hl'] at hl
        exact Or.inl (Except.ok.inj hl).symm
    exact {
      terms := by simp only [h.terms]
      named := fun slug column hc => named_insert h hf hc
      produced := produced_insert h hf (hlevels.imp (fun he => by rw [he]) id)
      resolved := h.resolved }
  · rw [if_neg ht] at hs hs'
    cases hs
    cases hs'
    exact h

theorem alike_resolutions {g : Glm F} (halike : AlikeRows num g row row')
    (h : resolveFactorColumns num row g.factors = .ok r)
    (h' : resolveFactorColumns num row' g.factors = .ok r') : AlikeResolutions g.factors r r' := by
  obtain ⟨p, hp, hr⟩ := bind_eq_ok.mp h
  obtain ⟨p', hp', hr'⟩ := bind_eq_ok.mp h'
  have hplain : AlikeResolutions g.factors p p' :=
    foldlM_related (fun f hf _ _ _ _ hR hs hs' =>
      alike_resolvePlain hR hf (halike.series f hf) hs hs') alike_start hp hp'
  exact foldlM_related (fun f hf _ _ _ _ hR hs hs' => alike_resolveCross hR hf hs hs') hplain hr hr'

end Resolutions

/-! ## Accepted models -/

section Accepted

variable {m : PinnedModel F} {factors : List Factor} {row row' : Row}

theorem intent_of_accepted (h : m.refuseOwn = .ok ⟨⟩) {f : Factor} (hconsumed : f.slug ∈ m.consumed)
    (hfound : f.intent = .control → bySlug m.factors f.slug = some f) : f.intent ≠ .control := by
  intro hcontrol
  obtain ⟨features, hfeatures, hcheck⟩ := bind_eq_ok.mp h
  have hmem : f.slug ∈ features := by
    unfold PinnedModel.consumedFeatures at hfeatures
    split_ifs at hfeatures
    cases hfeatures
    exact hconsumed
  have hfeature := forM_eq_ok.mp hcheck f.slug hmem
  rw [hfound hcontrol] at hfeature
  exact ensure_eq_ok.mp hfeature hcontrol

theorem not_tainted (h : m.refuseOwn = .ok ⟨⟩) (hclean : CleanFactors m.factors m.consumed)
    {f : Factor} (hf : f ∈ m.factors) (hconsumed : f.slug ∈ m.consumed) :
    ¬ Tainted m.factors f := by
  obtain ⟨hfound, hcross⟩ := hclean f hf hconsumed
  rintro (hcontrol | ⟨ht, g, hg, hid, hcontrol⟩)
  · exact intent_of_accepted h hconsumed hfound hcontrol
  · exact hcross ht g hg hid hcontrol

theorem mem_consumed {g : Glm F} {c : Coefficient F} (hc : c ∈ g.coefficients)
    (hne : c.term ≠ intercept) : termSlug c.term ∈ (PinnedModel.glm g).consumed := by
  rw [PinnedModel.consumed, List.mem_dedup, List.mem_map]
  exact ⟨c.term, List.mem_filter.mpr ⟨List.mem_map.mpr ⟨c, hc, rfl⟩, by simpa using hne⟩, rfl⟩

/-- What an accepted clean GLM reads for a term is the same on rows that are alike. -/
theorem designColumn_alike {g : Glm F} {r r' : Resolution}
    (hokay : (PinnedModel.glm g).refuseOwn = .ok ⟨⟩)
    (hclean : CleanFactors g.factors (PinnedModel.glm g).consumed)
    (halike : AlikeRows num g row row') (hr : AlikeResolutions g.factors r r')
    {c : Coefficient F} (hc : c ∈ g.coefficients) :
    designColumn num row r c.term = designColumn num row' r' c.term := by
  -- the column of a slug that is consumed
  have hread : ∀ slug column, r.terms.get? slug = some column →
      ('[' ∉ slug.toList → slug ∈ (PinnedModel.glm g).consumed) →
      r.column row column = r'.column row' column := by
    intro slug column hcolumn hconsumed
    obtain ⟨f, hf, rfl, rfl⟩ := hr.named slug column hcolumn
    have hslug := hconsumed f.slug_ok
    have hnot := not_tainted (m := .glm g) hokay hclean hf hslug
    by_cases ht : f.type = .identity
    · have hintent : f.intent ≠ .control := fun hi => hnot (Or.inl hi)
      have hseries := halike.series f hf (by rw [ht]; decide) hintent
      simp only [plainSeries, ht] at hseries
      simp only [Factor.column, ht, if_true, Resolution.column]
      cases hv : row.get? f.source <;> cases hv' : row'.get? f.source <;>
        simp_all [require]
    · simp only [Factor.column, if_neg ht, Resolution.column]
      rcases hr.produced f.slug with heq | ⟨h, hh, hslug', htainted⟩
      · exact heq
      · exact absurd htainted (not_tainted (m := .glm g) hokay hclean hh (hslug' ▸ hslug))
  unfold designColumn
  by_cases hi : c.term = intercept
  · rw [if_pos hi, if_pos hi]
  · rw [if_neg hi, if_neg hi, ← hr.terms]
    have hmem := mem_consumed hc hi
    cases hd : dummy? c.term with
    | none =>
      cases hcolumn : r.terms.get? c.term with
      | none => rfl
      | some column =>
        have hsame := hread c.term column hcolumn fun hb => termSlug_of_plain hb ▸ hmem
        simp only [require, Option.elim_some, bind, Except.bind, hsame]
    | some p =>
      obtain ⟨slug, level⟩ := p
      cases hcolumn : r.terms.get? slug with
      | none => simp only [hcolumn, require, Option.elim_none, bind, Except.bind]
      | some column =>
        have hsame := hread slug column hcolumn fun hb => termSlug_of_dummy hd hb ▸ hmem
        simp only [hcolumn, require, Option.elim_some, bind, Except.bind, hsame]

theorem designSum_congr {row row' : Row} {r r' : Resolution} {coefficients : List (Coefficient F)}
    (h : ∀ c ∈ coefficients, designColumn num row r c.term = designColumn num row' r' c.term) :
    designSum num row r coefficients = designSum num row' r' coefficients := by
  unfold designSum
  generalize num.zero = eta
  induction coefficients generalizing eta with
  | nil => rfl
  | cons c l ih =>
    rw [List.foldlM_cons, List.foldlM_cons, h c List.mem_cons_self]
    congr 1
    funext x
    exact ih (fun y hy => h y (List.mem_cons_of_mem _ hy)) x

theorem linearPredictorRow_alike {g : Glm F} {modelOffset : Option F} {v v' : F}
    (hokay : (PinnedModel.glm g).refuseOwn = .ok ⟨⟩)
    (hclean : CleanFactors g.factors (PinnedModel.glm g).consumed)
    (halike : AlikeRows num g row row')
    (h : g.linearPredictorRow num row modelOffset = .ok v)
    (h' : g.linearPredictorRow num row' modelOffset = .ok v') : v = v' := by
  obtain ⟨r, hr, h⟩ := bind_eq_ok.mp h
  obtain ⟨r', hr', h'⟩ := bind_eq_ok.mp h'
  have hres := alike_resolutions halike hr hr'
  have hsum : designSum num row r g.coefficients = designSum num row' r' g.coefficients :=
    designSum_congr fun c hc => designColumn_alike hokay hclean halike hres hc
  have hoffset : offsetValue num row g.offset modelOffset =
      offsetValue num row' g.offset modelOffset := by
    cases ho : g.offset with
    | none => rfl
    | model => rfl
    | column name => simp only [offsetValue, halike.offset name (Or.inl ho)]
    | logColumn name => simp only [offsetValue, halike.offset name (Or.inr ho)]
  rw [hsum, hoffset] at h
  exact Except.ok.inj (h.symm.trans h')

end Accepted

/-! ## Calls -/

section Calls

variable {m : PinnedModel F} {q q' : Quote}

theorem offset_alike {row row' : Row} {v v' : F} (hokay : m.refuseControlFactorFeatures = .ok ⟨⟩)
    (hclean : m.Clean) (halike : m.AlikeOn num row row')
    (h : m.linearPredictorRow num row = .ok v) (h' : m.linearPredictorRow num row' = .ok v') :
    v = v' := by
  cases m with
  | glm g => exact linearPredictorRow_alike hokay hclean halike h h'
  | glmOver g offsetSource =>
    obtain ⟨_, hown, _⟩ := bind_eq_ok.mp hokay
    exact linearPredictorRow_alike hown hclean.1 halike.1 h h'
  | gbm fit => cases h

theorem predictRow_alike {g : Glm F} {row row' : Row} {modelOffset : Option F} {v v' : F}
    (hokay : (PinnedModel.glm g).refuseOwn = .ok ⟨⟩)
    (hclean : CleanFactors g.factors (PinnedModel.glm g).consumed)
    (halike : AlikeRows num g row row') (h : g.predictRow num row modelOffset = .ok v)
    (h' : g.predictRow num row' modelOffset = .ok v') : v = v' := by
  obtain ⟨eta, heta, h⟩ := bind_eq_ok.mp h
  obtain ⟨eta', heta', h'⟩ := bind_eq_ok.mp h'
  obtain rfl := linearPredictorRow_alike hokay hclean halike heta heta'
  exact Except.ok.inj (h.symm.trans h')

/-- An accepted clean model predicts one number for quotes that differ in control factors only. -/
theorem predict_alike {v v' : F} (hokay : m.refuseControlFactorFeatures = .ok ⟨⟩)
    (hclean : m.Clean) (halike : m.Alike num q q') (h : m.predict num q = .ok v)
    (h' : m.predict num q' = .ok v') : v = v' := by
  cases m with
  | glm g =>
    obtain ⟨row, hrow, h⟩ := bind_eq_ok.mp h
    obtain ⟨row', hrow', h'⟩ := bind_eq_ok.mp h'
    exact predictRow_alike hokay hclean (halike row row' hrow hrow') h h'
  | glmOver g offsetSource =>
    obtain ⟨_, hown, hsource⟩ := bind_eq_ok.mp hokay
    obtain ⟨row, hrow, h⟩ := bind_eq_ok.mp h
    obtain ⟨offset, hoffset, h⟩ := bind_eq_ok.mp h
    obtain ⟨row', hrow', h'⟩ := bind_eq_ok.mp h'
    obtain ⟨offset', hoffset', h'⟩ := bind_eq_ok.mp h'
    obtain ⟨hrows, hrows'⟩ := halike row row' hrow hrow'
    obtain rfl := offset_alike hsource hclean.2 hrows' hoffset hoffset'
    exact predictRow_alike hown hclean.1 hrows h h'
  | gbm fit =>
    have hcells : fit.feature_order.mapM (fun slug =>
          require (q.cell slug) (ScoreFailure.prediction "MODEL_FEATURES_MISSING")) =
        fit.feature_order.mapM (fun slug =>
          require (q'.cell slug) (ScoreFailure.prediction "MODEL_FEATURES_MISSING")) := by
      refine mapM_same fun slug hslug => ?_
      rw [halike slug hslug fun f hf hs => ?_]
      have hconsumed : f.slug ∈ (PinnedModel.gbm fit).consumed := by
        rw [hs, PinnedModel.consumed, List.mem_dedup]
        exact hslug
      exact intent_of_accepted (m := .gbm fit) hokay hconsumed (hclean f hf hconsumed).1
    simp only [PinnedModel.predict, hcells] at h h'
    exact Except.ok.inj (h.symm.trans h')

theorem predicted_alike {v v' : ℚ} (hokay : m.refuseControlFactorFeatures = .ok ⟨⟩)
    (hclean : m.Clean) (halike : m.Alike num q q') (h : predicted num q m = .ok v)
    (h' : predicted num q' m = .ok v') : v = v' := by
  obtain ⟨x, hx, h⟩ := bind_eq_ok.mp h
  obtain ⟨x', hx', h'⟩ := bind_eq_ok.mp h'
  obtain rfl := predict_alike hokay hclean halike hx hx'
  exact Except.ok.inj (h.symm.trans h')

theorem perilCost_alike {p : Peril F} {v v' : ℚ}
    (hmodels : ∀ m ∈ p.method.models, m.refuseControlFactorFeatures = .ok ⟨⟩ ∧ m.Clean ∧
      m.Alike num q q')
    (h : p.cost num q = .ok v) (h' : p.cost num q' = .ok v') : v = v' := by
  obtain ⟨cost, hcost, h⟩ := bind_eq_ok.mp h
  obtain ⟨cost', hcost', h'⟩ := bind_eq_ok.mp h'
  have hsame : cost = cost' := by
    cases hm : p.method with
    | burningCost m =>
      rw [hm] at hcost hcost' hmodels
      obtain ⟨hokay, hclean, halike⟩ := hmodels m (List.mem_singleton_self m)
      exact predicted_alike hokay hclean halike hcost hcost'
    | frequencySeverity frequency severity =>
      rw [hm] at hcost hcost' hmodels
      obtain ⟨f, hf, hcost⟩ := bind_eq_ok.mp hcost
      obtain ⟨s, hs, hcost⟩ := bind_eq_ok.mp hcost
      obtain ⟨f', hf', hcost'⟩ := bind_eq_ok.mp hcost'
      obtain ⟨s', hs', hcost'⟩ := bind_eq_ok.mp hcost'
      obtain ⟨hokay, hclean, halike⟩ := hmodels frequency List.mem_cons_self
      obtain ⟨hokay', hclean', halike'⟩ := hmodels severity (by simp [PerilMethod.models])
      obtain rfl := predicted_alike hokay hclean halike hf hf'
      obtain rfl := predicted_alike hokay' hclean' halike' hs hs'
      exact Except.ok.inj (hcost.symm.trans hcost')
  subst hsame
  exact Except.ok.inj (h.symm.trans h')

theorem costs_alike {perils : List (Peril F)} {costs costs' : List ℚ}
    (hmodels : ∀ p ∈ perils, ∀ m ∈ p.method.models,
      m.refuseControlFactorFeatures = .ok ⟨⟩ ∧ m.Clean ∧ m.Alike num q q')
    (h : List.Forall₂ (fun p cost => p.cost num q = .ok cost) perils costs)
    (h' : List.Forall₂ (fun p cost => p.cost num q' = .ok cost) perils costs') :
    costs = costs' := by
  induction h generalizing costs' with
  | nil =>
    cases h'
    rfl
  | cons hp _ ih =>
    cases h' with
    | cons hp' hrest =>
      rw [perilCost_alike (hmodels _ List.mem_cons_self) hp hp',
        ih (fun p hp => hmodels p (List.mem_cons_of_mem _ hp)) hrest]

/-- The calls of an accepted algorithm are not affected by a control factor, as long as no
factor under a slug that a model consumes crosses a control factor, or hides one. -/
theorem unaffected_of_clean (calls : List (ModelCall F))
    (hokay : refuseControlFactorModelCalls calls = .ok ⟨⟩)
    (hclean : ∀ call ∈ calls, ∀ m ∈ call.models, m.Clean) :
    ∀ call ∈ calls, call.Unaffected num := by
  intro call hcall q q' v v' halike h h'
  have hmodels : ∀ m ∈ call.models, m.refuseControlFactorFeatures = .ok ⟨⟩ ∧ m.Clean ∧
      m.Alike num q q' := fun m hm =>
    ⟨forM_eq_ok.mp (forM_eq_ok.mp hokay call hcall) m hm, hclean call hcall m hm, halike m hm⟩
  cases call with
  | model m =>
    obtain ⟨x, hx, rfl⟩ := map_eq_ok.mp h
    obtain ⟨x', hx', rfl⟩ := map_eq_ok.mp h'
    obtain ⟨hokay, hclean, halike⟩ := hmodels m (List.mem_singleton_self m)
    rw [predict_alike hokay hclean halike hx hx']
  | perilStructure perils =>
    obtain ⟨costs, hcosts, h⟩ := bind_eq_ok.mp h
    obtain ⟨costs', hcosts', h'⟩ := bind_eq_ok.mp h'
    have hsame : costs = costs' :=
      costs_alike (fun p hp m hm => hmodels m (List.mem_flatMap.mpr ⟨p, hp, hm⟩))
        (mapM_eq_ok.mp hcosts) (mapM_eq_ok.mp hcosts')
    subst hsame
    exact Except.ok.inj (h.symm.trans h')

end Calls

section Example

/-- Whole numbers, an identity link and texts as levels. -/
def exactNumerics : Numerics ℤ where
  zero := 0
  one := 1
  add := (· + ·)
  mul := (· * ·)
  number
    | .int n => .ok n
    | _ => .error (.prediction "VALUE_NOT_NUMBER")
  levelText
    | .text s => s
    | _ => ""
  indicator v level := if v = .text level then 1 else 0
  logOf _ := .error (.prediction "MODEL_OFFSET_MISSING")
  isFinite _ := true
  inverseLink link eta := if link = "identity" then .ok eta else
    .error (.prediction "MODEL_LINK_UNSUPPORTED")
  derive f _ := .error (.factorResolution f.slug)
  sameValue v w := v = w
  exact n := some n

def areaFactor : Factor := { id := 1, slug := "area", type := .identity,
                             source_columns := ["area"], slug_ok := by decide }

/-- The year of account: fitted, never to be rated on. -/
def yearFactor : Factor := { id := 2, slug := "year", type := .identity,
                             source_columns := ["year"], intent := .control, slug_ok := by decide }

def areaYear : Factor := { id := 3, slug := "area_year", type := .interaction,
                           operand_factor_ids := [1, 2], slug_ok := by decide }

def areaModel : PinnedModel ℤ :=
  .glm ⟨[⟨"intercept", 100⟩, ⟨"area[N]", 50⟩], [areaFactor], "identity", .none⟩

def crossModel : PinnedModel ℤ :=
  .glm ⟨[⟨"intercept", 100⟩, ⟨"area_year[N | 2023]", 50⟩], [areaFactor, yearFactor, areaYear],
    "identity", .none⟩

def quoteOf (area year : String) : Quote :=
  ⟨⟨[("area", .text area), ("year", .text year)], by simp⟩, .empty⟩

theorem areaModel_unaffected : (ModelCall.model areaModel).Unaffected exactNumerics := by
  refine unaffected_of_clean [.model areaModel] rfl ?_ _ (List.mem_singleton_self _)
  intro call hcall m hm
  obtain rfl := List.mem_singleton.mp hcall
  obtain rfl := List.mem_singleton.mp hm
  intro f hf _
  obtain rfl := List.mem_singleton.mp hf
  constructor
  · intro h
    cases h
  · intro h
    cases h

/-- A cross of the area with the year of account is accepted, and the price moves with the year. -/
theorem crossModel_affected : ¬ ∀ (F : Type) (num : Numerics F) (calls : List (ModelCall F)),
    refuseControlFactorModelCalls calls = .ok ⟨⟩ → ∀ call ∈ calls, call.Unaffected num := by
  intro h
  have hvalue : ModelCall.value exactNumerics (quoteOf "N" "2023") (.model crossModel) =
      .ok (.inl 150) := by rfl
  have hvalue' : ModelCall.value exactNumerics (quoteOf "N" "2024") (.model crossModel) =
      .ok (.inl 100) := by rfl
  have hokay : refuseControlFactorModelCalls [ModelCall.model crossModel] = .ok ⟨⟩ := by rfl
  have halike : crossModel.Alike exactNumerics (quoteOf "N" "2023") (quoteOf "N" "2024") := by
    intro row row' hrow hrow'
    cases hrow
    cases hrow'
    refine ⟨?_, ?_⟩
    · intro f hf ht hi
      simp only [List.mem_cons, List.not_mem_nil, or_false] at hf
      rcases hf with rfl | rfl | rfl
      · rfl
      · exact absurd rfl hi
      · exact absurd rfl ht
    · rintro name (h | h) <;> cases h
  have hsame := h ℤ exactNumerics [.model crossModel] hokay _ (List.mem_singleton_self _)
    (quoteOf "N" "2023") (quoteOf "N" "2024") _ _
    (fun m hm => by obtain rfl := List.mem_singleton.mp hm; exact halike) hvalue hvalue'
  exact absurd (Sum.inl.inj hsame) (by decide)

end Example

end GiPricing.Factors
