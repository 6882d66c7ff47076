import GiPricing.Factors.Blocks
import GiPricing.Factors.Sweeps

/-! # Type III tests

Each factor of a linear model is dropped and the model is fitted again, for the deviance that the
factor was worth. The shorter list of factors is resolved anew, and the degrees of freedom are counted
in a third resolution.
-/

namespace GiPricing.Factors.Frames

open Failure Relational

variable {N F W : Type} [Field F] [LinearOrder F] [LinearOrder W] {height : ℕ}

/-! ## Fits -/

/-- What a linear model says beside its factors, over the rows of its training frame: no weight is
zero or less, as rows of weight zero are dropped and others are refused. -/
structure GlmTask (F : Type) [Field F] [LinearOrder F] (height : ℕ) where
  response : Fin height → F
  treated : Fin height → F
  weights : Fin height → F
  offset : Fin height → F
  unit_deviance : F → F → F
  inverse_link : F → F
  estimate : Dict (DesignColumn F height) → Option (F × (String → F))
  survival : F → ℕ → F
  weights_pos : ∀ i, 0 < weights i

/-- A fitted model: its design, and the intercept with the coefficients of the columns. -/
structure GlmFit (F : Type) (height : ℕ) where
  columns : Dict (DesignColumn F height)
  coefficients : F × (String → F)

namespace GlmTask

variable (task : GlmTask F height)

/-- The means that coefficients give over columns under the names of their terms. -/
def means (c : F × (String → F)) (columns : List (String × DesignColumn F height))
    (i : Fin height) : F :=
  task.inverse_link (task.offset i + c.1 + (columns.map fun e => c.2 e.1 * (e.2 i).getD 0).sum)

def predicted (columns : Dict (DesignColumn F height)) (c : F × (String → F)) : Fin height → F :=
  task.means c columns.entries

def deviance (mu : Fin height → F) : F := ∑ i, task.unit_deviance (task.response i) (mu i)

/-- The deviance that a fit is to minimise: it is weighted, over the treated response. -/
def specDeviance (mu : Fin height → F) : F :=
  ∑ i, task.weights i * task.unit_deviance (task.treated i) (mu i)

/-- A fit minimises the deviance of its spec. -/
def Minimises (fit : GlmFit F height) : Prop := ∀ c,
  task.specDeviance (task.predicted fit.columns fit.coefficients) ≤
    task.specDeviance (task.predicted fit.columns c)

end GlmTask

structure TypeIIITest (F : Type) where
  factor : String
  deviance_delta : F
  df : ℕ
  p_value : F

/-- A factor that is not tested, as an operand of an interaction. -/
structure TypeIIIOmission where
  factor : String

inductive TypeIIIOutcome (F : Type)
  | tested (t : TypeIIITest F)
  | omitted (o : TypeIIIOmission)
  | passed

namespace TypeIIIOutcome

def test? : TypeIIIOutcome F → Option (TypeIIITest F)
  | tested t => some t
  | _ => none

def omission? : TypeIIIOutcome F → Option TypeIIIOmission
  | omitted o => some o
  | _ => none

end TypeIIIOutcome

def without (factors : List Factor) (f : Factor) : List Factor :=
  factors.filter fun g => g.id ≠ f.id

section Tests

variable (engine : Engine N F) (artifacts : Artifacts F) (frame : Frame N height)
  (exposure : (Fin height → Bool) → W) (task : GlmTask F height) (factors : List Factor)

/-- `fit_glm`: none where the fit is refused by name. -/
def fitGlm : Except Refusal (Option (GlmFit F height)) := do
  let r ← resolveFactorColumns engine artifacts frame factors
  let columns ← design engine frame exposure r
  if columns.entries = [] then return none
  else return (task.estimate columns).map fun c => ⟨columns, c⟩

/-- The column that scoring reads for a term. -/
def scoredColumn (r : Resolution N height) (term : String) : Except Refusal (DesignColumn F height) :=
  if term = intercept then .ok fun _ => some 1
  else match dummy? term with
    | some (slug, level) => do
      let column ← require (r.terms.get? slug) (.unresolvedTerm term)
      let series ← require (r.column frame column) (.columnNotFound slug)
      return indicator (series.text engine) level
    | none => do
      let column ← require (r.terms.get? term) (.unresolvedTerm term)
      let series ← require (r.column frame column) (.columnNotFound term)
      require (series.number engine) (.castFailed term)

/-- `predict_glm` on the frame of the fit: the columns are read by the terms of the fit. -/
def predictGlm (fit : GlmFit F height) : Except Refusal (Fin height → F) := do
  let r ← resolveFactorColumns engine artifacts frame factors
  let columns ← fit.columns.entries.mapM fun e =>
    (scoredColumn engine frame r e.1).map fun column => (e.1, column)
  return task.means fit.coefficients columns

/-- `n_unique`, which counts a null. -/
def uniqueCount (text : Fin height → Option String) : ℕ := distinct text + nullLevel text

/-- `_term_count` -/
def termCount (f : Factor) : Except Refusal ℕ := do
  let operands := if f.type = .interaction then f.operand_factor_ids.filterMap (byId factors) else []
  let r ← resolveFactorColumns engine artifacts frame (f :: operands)
  match r.terms.get? f.slug with
  | none => return 1
  | some column =>
    if column ∈ r.categorical then do
      let series ← require (r.column frame column) (.columnNotFound f.slug)
      return max 1 (uniqueCount (series.text engine) - 1)
    else return 1

/-- One round of `_type_iii`. -/
def typeIIIOf (full : F) (f : Factor) : Except Refusal (TypeIIIOutcome F) :=
  if (operandIds factors).contains f.id then .ok (.omitted ⟨f.slug⟩)
  else do
    match ← fitGlm engine artifacts frame exposure task (without factors f) with
    | none => return .passed
    | some reduced =>
      let mu ← predictGlm engine artifacts frame task (without factors f) reduced
      let delta := task.deviance mu - full
      let df ← termCount engine artifacts frame factors f
      return .tested ⟨f.slug, delta, df, task.survival (max delta 0) df⟩

/-- `_type_iii` -/
def typeIII (full : F) : Except Refusal (List (TypeIIITest F) × List TypeIIIOmission) :=
  if factors.length < 2 then .ok ([], [])
  else do
    let outcomes ← factors.mapM (typeIIIOf engine artifacts frame exposure task factors full)
    return (outcomes.filterMap TypeIIIOutcome.test?, outcomes.filterMap TypeIIIOutcome.omission?)

/-! ## Tests of likelihood ratios -/

/-- Each factor with a term is tested or omitted. A test refits the design without the columns of its
factor, counts them, and takes no deviance away where both fits are the best of their designs. -/
structure LikelihoodRatio (full : GlmFit F height) (tests : List (TypeIIITest F))
    (omitted : List TypeIIIOmission) : Prop where
  covered : ∀ f ∈ termFactors factors,
    (∃ t ∈ tests, t.factor = f.slug) ∨ ∃ o ∈ omitted, o.factor = f.slug
  nested : ∀ t ∈ tests, ∃ f ∈ factors, t.factor = f.slug ∧ ∃ reduced,
    fitGlm engine artifacts frame exposure task (without factors f) = .ok (some reduced) ∧
    reduced.columns.entries = full.columns.entries.filter (fun e => termSlug e.1 ≠ f.slug) ∧
    t.df = (full.columns.entries.filter fun e => termSlug e.1 = f.slug).length ∧
    (task.Minimises full → task.Minimises reduced → 0 ≤ t.deviance_delta)

/-- The tests of a fit are likelihood ratio tests. -/
def TestsAreRatios (full : GlmFit F height) : Prop := ∃ mu tests omitted,
  predictGlm engine artifacts frame task factors full = .ok mu ∧
  typeIII engine artifacts frame exposure task factors (task.deviance mu) = .ok (tests, omitted) ∧
  LikelihoodRatio engine artifacts frame exposure task factors full tests omitted

/-- An operand of a cross that has a term once the cross is dropped. -/
def Released (f g : Factor) : Prop := g.type ≠ .interaction ∧
  (operandIds factors).contains g.id = true ∧ (operandIds (without factors f)).contains g.id = false

/-- Scoring reads the level of each term back. -/
def Legible : Prop := ∀ f ∈ termFactors factors, ∀ s,
  seriesOf engine artifacts frame factors f = some s → s.kind = .levels →
    ∀ level ∈ (baseFirst exposure (s.text engine)).tail, CleanLevel level

/-- What the tests need of the terms: their levels are read back, each shorter model is fitted, each
factor of levels has two levels or more and no null, and a dropped cross releases no operand with two
levels. -/
structure Testable : Prop where
  legible : Legible engine artifacts frame exposure factors
  fits : ∀ f ∈ termFactors factors, ∃ reduced,
    fitGlm engine artifacts frame exposure task (without factors f) = .ok (some reduced)
  levels : ∀ f ∈ termFactors factors, ∀ s, seriesOf engine artifacts frame factors f = some s →
    s.kind = .levels → nullLevel (s.text engine) = 0 ∧ 2 ≤ distinct (s.text engine)
  released : ∀ f ∈ termFactors factors, ∀ g ∈ factors, Released factors f g →
    ∀ s, seriesOf engine artifacts frame factors g = some s → distinct (s.text engine) ≤ 1

/-- No factor of numbers is named as the intercept is. -/
def NumbersNamed : Prop := ∀ f ∈ termFactors factors, ∀ s,
  seriesOf engine artifacts frame factors f = some s → s.kind ≠ .levels → f.slug ≠ intercept

end Tests

variable {engine : Engine N F} {artifacts : Artifacts F} {frame : Frame N height}
  {exposure : (Fin height → Bool) → W} {task : GlmTask F height} {factors : List Factor}
  {r : Resolution N height} {f g : Factor} {s : Series N height}

/-! ## The factors of the shorter model -/

theorem mem_without : g ∈ without factors f ↔ g ∈ factors ∧ g.id ≠ f.id := by
  simp [without]

theorem byId_without {id : UUID} (h : id ≠ f.id) : byId (without factors f) id = byId factors id := by
  unfold byId without
  rw [← List.filter_reverse, List.find?_filter]
  congr 1
  funext g
  by_cases hg : g.id = id
  · simp [hg, h]
  · simp [hg]

theorem contains_operandIds {id : UUID} : (operandIds factors).contains id = true ↔
    ∃ h ∈ factors, h.type = .interaction ∧ id ∈ h.operand_factor_ids := by
  rw [List.contains_iff_mem]
  simp [operandIds, List.mem_flatMap, and_assoc]

section Free

variable (hfree : (operandIds factors).contains f.id = false)

include hfree

theorem ne_of_operand {h : Factor} (hh : h ∈ factors) (htype : h.type = .interaction) {id : UUID}
    (hid : id ∈ h.operand_factor_ids) : id ≠ f.id := by
  rintro rfl
  rw [contains_operandIds.mpr ⟨h, hh, htype, hid⟩] at hfree
  cases hfree

theorem seriesOf_without (hg : g ∈ factors) :
    seriesOf engine artifacts frame (without factors f) g = seriesOf engine artifacts frame factors g := by
  apply seriesOf_congr
  intro htype id hid
  exact byId_without (ne_of_operand hfree hg htype hid)

theorem block_without (hg : g ∈ factors) :
    block engine artifacts frame (without factors f) exposure g =
      block engine artifacts frame factors exposure g := by
  unfold block
  rw [seriesOf_without hfree hg]

end Free

theorem slugs_without (h : (factors.map Factor.slug).Nodup) :
    ((without factors f).map Factor.slug).Nodup :=
  h.sublist (List.filter_sublist.map _)

theorem free_of_term (hr : resolveFactorColumns engine artifacts frame factors = .ok r)
    (hids : (factors.map Factor.id).Nodup) (hf : f ∈ termFactors factors) :
    (operandIds factors).contains f.id = false := by
  obtain ⟨hmem, hcross | hfree⟩ := mem_termFactors.mp hf
  · by_contra hop
    obtain ⟨h, hh, htype, hid⟩ := contains_operandIds.mp (by simpa using hop)
    obtain ⟨_, g, hg, hplain, -⟩ := (resolve_ok.mp ⟨r, hr⟩ h hh).2 htype _ hid
    obtain ⟨hgmem, hgid⟩ := byId_mem hg
    obtain rfl := List.inj_on_of_nodup_map hids hgmem hmem hgid
    exact hplain hcross
  · exact hfree

theorem kind_of_released (hr : resolveFactorColumns engine artifacts frame factors = .ok r)
    (hids : (factors.map Factor.id).Nodup) (hg : g ∈ factors) (h : Released factors f g)
    (hs : seriesOf engine artifacts frame factors g = some s) : s.kind = .levels := by
  obtain ⟨hplain, hop, -⟩ := h
  obtain ⟨h, hh, htype, hid⟩ := contains_operandIds.mp hop
  obtain ⟨s', g', hg', -, hs', hkind⟩ := (resolve_ok.mp ⟨r, hr⟩ h hh).2 htype _ hid
  obtain ⟨hgmem, hgid⟩ := byId_mem hg'
  obtain rfl := List.inj_on_of_nodup_map hids hgmem hg hgid
  rw [seriesOf, if_neg hplain] at hs
  obtain rfl := Except.ok.inj (hs'.symm.trans (toOption_eq_some.mp hs))
  exact hkind

theorem mem_termFactors_without : g ∈ termFactors (without factors f) ↔ g ∈ factors ∧ g.id ≠ f.id ∧
    (g.type = .interaction ∨ (operandIds (without factors f)).contains g.id = false) := by
  rw [mem_termFactors, mem_without, and_assoc]

theorem contains_without (h : (operandIds factors).contains g.id = false) :
    (operandIds (without factors f)).contains g.id = false := by
  rw [← Bool.not_eq_true, contains_operandIds] at h ⊢
  rintro ⟨c, hc, htype, hid⟩
  exact h ⟨c, (mem_without.mp hc).1, htype, hid⟩

/-! ## The design of the shorter model -/

theorem flatMap_filter {α β : Type} {p : α → Bool} {h : α → List β} {l : List α} :
    (l.filter p).flatMap h = l.flatMap fun a => if p a then h a else [] := by
  induction l with
  | nil => rfl
  | cons a l ih =>
    by_cases ha : p a = true
    · rw [List.filter_cons_of_pos ha, List.flatMap_cons, List.flatMap_cons, ih, if_pos ha]
    · rw [List.filter_cons_of_neg ha, List.flatMap_cons, ih, if_neg ha, List.nil_append]

theorem filter_flatMap {α β : Type} {q : β → Bool} {p : α → Bool} {h : α → List β} {l : List α}
    (hq : ∀ a ∈ l, ∀ b ∈ h a, q b = p a) : (l.flatMap h).filter q = (l.filter p).flatMap h := by
  induction l with
  | nil => rfl
  | cons a l ih =>
    have hl := ih fun a ha => hq a (List.mem_cons_of_mem _ ha)
    have ha := hq a List.mem_cons_self
    rw [List.flatMap_cons, List.filter_append, hl]
    by_cases hp : p a = true
    · rw [List.filter_cons_of_pos hp, List.flatMap_cons,
        List.filter_eq_self.mpr fun b hb => (ha b hb).trans hp]
    · rw [List.filter_cons_of_neg hp, List.filter_eq_nil_iff.mpr fun b hb => by rw [ha b hb]; exact hp,
        List.nil_append]

theorem flatMap_congr_mem {α β : Type} {h h' : α → List β} {l : List α}
    (hh : ∀ a ∈ l, h a = h' a) : l.flatMap h = l.flatMap h' := by
  induction l with
  | nil => rfl
  | cons a l ih =>
    rw [List.flatMap_cons, List.flatMap_cons, hh a List.mem_cons_self,
      ih fun a ha => hh a (List.mem_cons_of_mem _ ha)]

section Distinct

variable (hr : resolveFactorColumns engine artifacts frame factors = .ok r)
  (hslugs : (factors.map Factor.slug).Nodup) (hids : (factors.map Factor.id).Nodup)

include hslugs hids in
theorem slug_iff_id (hf : f ∈ factors) (hg : g ∈ factors) : g.slug = f.slug ↔ g.id = f.id := by
  constructor
  · intro h
    rw [eq_of_slug hslugs hg hf h]
  · intro h
    rw [List.inj_on_of_nodup_map hids hg hf h]

include hr hslugs hids

omit hr in
theorem filter_blocks (hf : f ∈ factors) : ((termFactors factors).flatMap
      (block engine artifacts frame factors exposure)).filter (fun e => termSlug e.1 ≠ f.slug) =
    ((termFactors factors).filter fun g => g.id ≠ f.id).flatMap
      (block engine artifacts frame factors exposure) := by
  apply filter_flatMap
  intro g hg e he
  rw [termSlug_of_block he]
  exact decide_eq_decide.mpr (not_congr (slug_iff_id hslugs hids hf (mem_termFactors.mp hg).1))

omit hr hids in
theorem filter_block (hf : f ∈ termFactors factors) : ((termFactors factors).flatMap
      (block engine artifacts frame factors exposure)).filter (fun e => termSlug e.1 = f.slug) =
    block engine artifacts frame factors exposure f := by
  have hmem := (mem_termFactors.mp hf).1
  rw [filter_flatMap (p := fun g => decide (g = f))]
  · have hnodup := (nodup_termFactors hslugs).of_map
    rw [List.filter_eq, List.count_eq_one_of_mem hnodup hf]
    simp
  · intro g hg e he
    rw [termSlug_of_block he]
    refine decide_eq_decide.mpr ⟨eq_of_slug hslugs (mem_termFactors.mp hg).1 hmem, ?_⟩
    rintro rfl
    rfl

omit hr in
/-- The design of the shorter model is that of the others just where what the cross releases has no
column. -/
theorem blocks_without_iff (hf : f ∈ factors) (hfree : (operandIds factors).contains f.id = false) :
    (termFactors (without factors f)).flatMap (block engine artifacts frame (without factors f) exposure) =
      ((termFactors factors).flatMap (block engine artifacts frame factors exposure)).filter
        (fun e => termSlug e.1 ≠ f.slug) ↔
    ∀ g ∈ factors, Released factors f g → block engine artifacts frame factors exposure g = [] := by
  have hown : (termFactors (without factors f)).flatMap
      (block engine artifacts frame (without factors f) exposure) =
        (termFactors (without factors f)).flatMap (block engine artifacts frame factors exposure) :=
    flatMap_congr_mem fun g hg => block_without hfree (mem_termFactors_without.mp hg).1
  rw [hown, filter_blocks hslugs hids hf]
  constructor
  · intro heq g hg hreleased
    rw [List.eq_nil_iff_forall_not_mem]
    intro e he
    have hterm : g ∈ termFactors (without factors f) := by
      refine mem_termFactors_without.mpr ⟨hg, ?_, Or.inr hreleased.2.2⟩
      rintro hid
      rw [← hid, hreleased.2.1] at hfree
      cases hfree
    have hshort : e ∈ (termFactors (without factors f)).flatMap
        (block engine artifacts frame factors exposure) := List.mem_flatMap.mpr ⟨g, hterm, he⟩
    rw [heq] at hshort
    obtain ⟨g', hg', he'⟩ := List.mem_flatMap.mp hshort
    have hterm' := mem_termFactors.mp (List.mem_of_mem_filter hg')
    obtain rfl := eq_of_slug hslugs hg hterm'.1
      ((termSlug_of_block he).symm.trans (termSlug_of_block he'))
    rcases hterm'.2 with htype | hfree'
    · exact hreleased.1 htype
    · rw [hreleased.2.1] at hfree'
      cases hfree'
  · intro hreleased
    simp only [termFactors, without, List.filter_append, List.filter_filter, List.flatMap_append,
      flatMap_filter]
    refine congrArg₂ _ (flatMap_congr_mem fun g hg => ?_) (flatMap_congr_mem fun g hg => ?_)
    · change (if (decide (g.type ≠ .interaction ∧
          (operandIds (without factors f)).contains g.id = false) && _) = true then _ else _) = _
      rw [Bool.and_comm]
      by_cases hop : (operandIds factors).contains g.id = false
      · rw [contains_without hop, hop]
      · have hop' : (operandIds factors).contains g.id = true := by simpa using hop
        rw [hop']
        by_cases hplain : g.type ≠ .interaction ∧
            (operandIds (without factors f)).contains g.id = false
        · rw [hreleased g hg ⟨hplain.1, hop', hplain.2⟩]
          simp
        · rw [decide_eq_false hplain]
          simp
    · rw [Bool.and_comm]

end Distinct

/-! ## The degrees of freedom -/

theorem length_block (h : Writable engine artifacts frame factors exposure f)
    (hs : seriesOf engine artifacts frame factors f = some s) :
    (block engine artifacts frame factors exposure f).length =
      if s.kind = .levels then distinct (s.text engine) - 1 else 1 := by
  obtain ⟨s', columns, hs', hcolumns⟩ := h
  obtain rfl := Option.some.inj (hs.symm.trans hs')
  rw [block_eq hs hcolumns]
  unfold columnsOf at hcolumns
  split_ifs at hcolumns ⊢ with hkind
  · obtain rfl := Except.ok.inj hcolumns
    rw [List.length_map, List.length_tail, length_baseFirst]
  · obtain ⟨number, -, rfl⟩ := map_eq_ok.mp hcolumns
    rfl

theorem filterMap_operandsOf {operands : List Factor} (h : OperandsOf factors f operands) :
    f.operand_factor_ids.filterMap (byId factors) = operands := by
  have hall := mapM_eq_ok.mp h
  clear h
  generalize f.operand_factor_ids = ids at hall
  induction hall with
  | nil => rfl
  | cons hid _ ih => rw [List.filterMap_cons_some (require_eq_ok.mp hid), ih]

theorem seriesOf_cross {operands : List Factor} (h : OperandsOf factors f operands) :
    seriesOf engine artifacts frame (f :: operands) f = seriesOf engine artifacts frame factors f :=
  seriesOf_congr fun _ _ hid => byId_operandsOf h hid

theorem count_alone {needed : List Factor} {r' : Resolution N height}
    (hr' : resolveFactorColumns engine artifacts frame needed = .ok r')
    (hterms : termFactors needed = [f])
    (hmaker : makerIn (writers needed) f.slug f.column = some f)
    (hs : seriesOf engine artifacts frame needed f = some s) :
    (match r'.terms.get? f.slug with
      | none => (return 1 : Except Refusal ℕ)
      | some column =>
        if column ∈ r'.categorical then do
          let series ← require (r'.column frame column) (.columnNotFound f.slug)
          return max 1 (uniqueCount (series.text engine) - 1)
        else return 1) =
      .ok (if s.kind = .levels then max 1 (uniqueCount (s.text engine) - 1) else 1) := by
  have hterm : r'.terms.get? f.slug = some f.column := by
    rw [terms_of_resolve hr', hterms, termsOf_get?]
    simp
  obtain ⟨series, hseries, hmakes⟩ := (made_of_resolve hr').column _ _ f hmaker
  obtain rfl := Option.some.inj ((seriesOf_of_makes hr' hmakes).symm.trans hs)
  have hlevels : f.column ∈ r'.categorical ↔ series.kind = .levels := by
    rw [mem_categorical hr', hterms]
    simp [hs]
  rw [hterm]
  dsimp only
  by_cases hkind : series.kind = .levels
  · rw [if_pos hkind, if_pos (hlevels.mpr hkind), hseries]
    rfl
  · rw [if_neg hkind, if_neg (mt hlevels.mp hkind)]
    rfl

theorem termCount_eq (hr : resolveFactorColumns engine artifacts frame factors = .ok r)
    (hf : f ∈ factors) (hs : seriesOf engine artifacts frame factors f = some s) :
    termCount engine artifacts frame factors f =
      .ok (if s.kind = .levels then max 1 (uniqueCount (s.text engine) - 1) else 1) := by
  unfold termCount
  by_cases htype : f.type = .interaction
  · obtain ⟨operands, hoperands, r', hr'⟩ := resolve_cross hr hf htype
    have hneeded : (if f.type = .interaction then f.operand_factor_ids.filterMap (byId factors)
        else []) = operands := by rw [if_pos htype, filterMap_operandsOf hoperands]
    rw [hneeded]
    dsimp only
    rw [hr']
    exact count_alone hr' (termFactors_cross hr hf htype hoperands)
      (makerIn_cross hr hf htype hoperands) (by rw [seriesOf_cross hoperands, hs])
  · obtain ⟨r', hr'⟩ := resolve_alone hr hf htype
    have hneeded : (if f.type = .interaction then f.operand_factor_ids.filterMap (byId factors)
        else []) = [] := if_neg htype
    rw [hneeded]
    dsimp only
    rw [hr']
    apply count_alone hr' (termFactors_alone htype)
    · rw [writers_alone htype]
      exact makerIn_alone
    · rw [seriesOf, if_neg htype] at hs ⊢
      exact hs

theorem count_eq_iff {d n : ℕ} (hn : n ≤ 1) : max 1 (d + n - 1) = d - 1 ↔ n = 0 ∧ 2 ≤ d := by
  omega

/-! ## The deviances -/

section Deviance

theorem predicted_of_filter {columns columns' : Dict (DesignColumn F height)} {slug : String}
    (h : columns'.entries = columns.entries.filter fun e => termSlug e.1 ≠ slug)
    (c : F × (String → F)) : ∃ c', task.predicted columns' c = task.predicted columns c' := by
  refine ⟨(c.1, fun k => if termSlug k ≠ slug then c.2 k else 0), ?_⟩
  funext i
  unfold GlmTask.predicted GlmTask.means
  rw [h]
  congr 2
  induction columns.entries with
  | nil => rfl
  | cons e l ih =>
    rw [List.map_cons, List.sum_cons, ← ih]
    dsimp only
    by_cases he : termSlug e.1 ≠ slug
    · rw [List.filter_cons_of_pos (by simpa using he), List.map_cons, List.sum_cons, if_pos he]
    · rw [List.filter_cons_of_neg (by simpa using he), if_neg he, zero_mul, zero_add]

variable [IsStrictOrderedRing F]

/-- Rows of one weight and an untreated response: the fits minimise what the tests compare. -/
theorem deviance_le (hweights : ∀ i j, task.weights i = task.weights j)
    (htreated : task.treated = task.response) {mu mu' : Fin height → F}
    (h : task.specDeviance mu ≤ task.specDeviance mu') : task.deviance mu ≤ task.deviance mu' := by
  by_cases hrows : Nonempty (Fin height)
  · obtain ⟨i⟩ := hrows
    have hscale : ∀ mu, task.specDeviance mu = task.weights i * task.deviance mu := by
      intro mu
      unfold GlmTask.specDeviance GlmTask.deviance
      rw [htreated, Finset.mul_sum]
      exact Finset.sum_congr rfl fun j _ => by rw [hweights j i]
    rw [hscale, hscale] at h
    exact le_of_mul_le_mul_left h (task.weights_pos i)
  · have hempty : IsEmpty (Fin height) := not_nonempty_iff.mp hrows
    unfold GlmTask.deviance
    simp

theorem delta_nonneg {full reduced : GlmFit F height}
    (hweights : ∀ i j, task.weights i = task.weights j) (htreated : task.treated = task.response)
    {slug : String}
    (h : reduced.columns.entries = full.columns.entries.filter fun e => termSlug e.1 ≠ slug)
    (hfull : task.Minimises full) : 0 ≤
      task.deviance (task.predicted reduced.columns reduced.coefficients) -
        task.deviance (task.predicted full.columns full.coefficients) := by
  rw [sub_nonneg]
  have hpredicted : ∃ c, task.predicted reduced.columns reduced.coefficients =
      task.predicted full.columns c := predicted_of_filter h reduced.coefficients
  obtain ⟨c, hc⟩ := hpredicted
  rw [hc]
  exact deviance_le hweights htreated (hfull c)

end Deviance

/-! ## Scoring -/

section Scoring

variable (hr : resolveFactorColumns engine artifacts frame factors = .ok r)
  (hslugs : (factors.map Factor.slug).Nodup) (hf : f ∈ termFactors factors)
  (hs : seriesOf engine artifacts frame factors f = some s)

include hr hslugs hf

theorem term_of_factor : r.terms.get? f.slug = some f.column := by
  rw [Dict.get?_eq_some, entries_of_resolve hr hslugs]
  exact List.mem_map_of_mem hf

omit hf in
theorem slug_of_term {slug : String} {column : Column} (h : r.terms.get? slug = some column) :
    ∃ g ∈ factors, g.slug = slug := by
  rw [Dict.get?_eq_some, entries_of_resolve hr hslugs] at h
  obtain ⟨g, hg, heq⟩ := List.mem_map.mp h
  exact ⟨g, (mem_termFactors.mp hg).1, (Prod.mk.inj heq).1⟩

include hs

theorem scoredColumn_level {level : String} (hread : dummy? (dummyTerm f.slug level) =
    some (f.slug, level)) : scoredColumn engine frame r (dummyTerm f.slug level) =
      .ok (indicator (s.text engine) level) := by
  rw [scoredColumn, if_neg (dummyTerm_ne_intercept _ _), hread]
  dsimp only
  rw [term_of_factor hr hslugs hf]
  simp only [require_bind_eq_ok, pure_eq_ok]
  exact ⟨_, rfl, s, column_of_factor hr hslugs (mem_termFactors.mp hf).1 hs, rfl⟩

theorem scoredColumn_number {number : DesignColumn F height} (hne : f.slug ≠ intercept)
    (hnumber : s.number engine = some number) :
    scoredColumn engine frame r f.slug = .ok number := by
  have hread : dummy? f.slug = none := by
    cases hd : dummy? f.slug with
    | none => rfl
    | some p =>
      obtain ⟨rest, hrest⟩ := toList_of_dummy hd
      exact absurd (by rw [hrest]; simp) f.slug_ok
  rw [scoredColumn, if_neg hne, hread]
  dsimp only
  rw [term_of_factor hr hslugs hf]
  simp only [require_bind_eq_ok, require_eq_ok]
  exact ⟨_, rfl, s, column_of_factor hr hslugs (mem_termFactors.mp hf).1 hs, hnumber⟩

omit hf hs in
theorem clean_of_scored (hslug : IsFactorSlug f.slug) {level : String}
    {column : DesignColumn F height}
    (h : scoredColumn engine frame r (dummyTerm f.slug level) = .ok column) : CleanLevel level := by
  rw [scoredColumn, if_neg (dummyTerm_ne_intercept _ _)] at h
  cases hd : dummy? (dummyTerm f.slug level) with
  | none =>
    rw [hd] at h
    obtain ⟨c, hc, -⟩ := require_bind_eq_ok.mp h
    obtain ⟨g, -, hg⟩ := slug_of_term hr hslugs hc
    exact absurd (hg ▸ bracket_mem_dummyTerm f.slug level) g.slug_ok
  | some p =>
    obtain ⟨slug, level'⟩ := p
    rw [hd] at h
    obtain ⟨c, hc, -⟩ := require_bind_eq_ok.mp h
    obtain ⟨g, -, rfl⟩ := slug_of_term hr hslugs hc
    have hg : g.slug = f.slug :=
      (termSlug_of_dummy hd g.slug_ok).symm.trans (termSlug_dummy f.slug_ok level)
    rw [hg] at hd
    obtain rfl := level_of_dummy hd
    exact (dummy?_dummyTerm hslug _).mp hd

end Scoring

section Predicted

variable {fit : GlmFit F height}
  (hfit : fitGlm engine artifacts frame exposure task factors = .ok (some fit))
  (hslugs : (factors.map Factor.slug).Nodup) (hgrammar : ∀ f ∈ factors, IsFactorSlug f.slug)

/-- What a fit is made of. -/
theorem of_fitGlm {l : List Factor} {full : GlmFit F height}
    (h : fitGlm engine artifacts frame exposure task l = .ok (some full)) :
    ∃ r, resolveFactorColumns engine artifacts frame l = .ok r ∧
      design engine frame exposure r = .ok full.columns := by
  obtain ⟨r, hr, h⟩ := bind_eq_ok.mp h
  obtain ⟨columns, hd, h⟩ := bind_eq_ok.mp h
  refine ⟨r, hr, ?_⟩
  split_ifs at h
  · cases pure_eq_ok.mp h
  · obtain ⟨c, -, rfl⟩ := Option.map_eq_some_iff.mp (pure_eq_ok.mp h)
    exact hd

include hfit hslugs hgrammar

/-- Scoring gives the means of the design where it reads the terms back. -/
theorem predictGlm_eq (hlegible : Legible engine artifacts frame exposure factors)
    (hnumbers : NumbersNamed engine artifacts frame factors) :
    predictGlm engine artifacts frame task factors fit =
      .ok (task.predicted fit.columns fit.coefficients) := by
  obtain ⟨r, hr, hd⟩ := of_fitGlm hfit
  have hcolumns : (fit.columns.entries.mapM fun e =>
      (scoredColumn engine frame r e.1).map fun column => (e.1, column)) =
        .ok fit.columns.entries := by
    rw [mapM_eq_ok, List.forall₂_same]
    intro e he
    rw [map_eq_ok]
    refine ⟨e.2, ?_, rfl⟩
    rw [entries_eq_blocks hr hslugs hd] at he
    obtain ⟨f, hf, he⟩ := List.mem_flatMap.mp he
    obtain ⟨s, columns, hs, hcolumns⟩ := (design_ok hr hslugs).mp ⟨_, hd⟩ f hf
    rw [block_eq hs hcolumns] at he
    unfold columnsOf at hcolumns
    split_ifs at hcolumns with hkind
    · obtain rfl := Except.ok.inj hcolumns
      obtain ⟨level, hlevel, rfl⟩ := List.mem_map.mp he
      exact scoredColumn_level hr hslugs hf hs ((dummy?_dummyTerm
        (hgrammar f (mem_termFactors.mp hf).1) level).mpr (hlegible f hf s hs hkind level hlevel))
    · obtain ⟨number, hnumber, rfl⟩ := map_eq_ok.mp hcolumns
      obtain rfl := List.mem_singleton.mp he
      exact scoredColumn_number hr hslugs hf hs (hnumbers f hf s hs hkind)
        (require_eq_ok.mp hnumber)
  unfold predictGlm
  rw [hr]
  refine bind_eq_ok.mpr ⟨r, rfl, ?_⟩
  rw [hcolumns]
  rfl

theorem legible_of_predictGlm {mu : Fin height → F}
    (h : predictGlm engine artifacts frame task factors fit = .ok mu) :
    Legible engine artifacts frame exposure factors := by
  obtain ⟨r, hr, hd⟩ := of_fitGlm hfit
  obtain ⟨r', hr', h⟩ := bind_eq_ok.mp h
  obtain rfl := Except.ok.inj (hr.symm.trans hr')
  obtain ⟨columns, hcolumns, -⟩ := bind_eq_ok.mp h
  intro f hf s hs hkind level hlevel
  have hmem : (dummyTerm f.slug level, indicator (s.text engine) level) ∈ fit.columns.entries := by
    rw [entries_eq_blocks hr hslugs hd]
    refine List.mem_flatMap.mpr ⟨f, hf, ?_⟩
    rw [block_eq hs (if_pos hkind)]
    exact List.mem_map_of_mem hlevel
  obtain ⟨e, -, he⟩ := exists_of_forall₂ (mapM_eq_ok.mp hcolumns) hmem
  obtain ⟨column, hcolumn, -⟩ := map_eq_ok.mp he
  exact clean_of_scored hr hslugs (hgrammar f (mem_termFactors.mp hf).1) hcolumn

end Predicted

/-! ## The tests -/

section Main

variable {full : GlmFit F height} {deviance : F}

theorem tested_of_outcome {t : TypeIIITest F}
    (h : typeIIIOf engine artifacts frame exposure task factors deviance f = .ok (.tested t)) :
    (operandIds factors).contains f.id = false ∧ t.factor = f.slug ∧ ∃ reduced mu,
      fitGlm engine artifacts frame exposure task (without factors f) = .ok (some reduced) ∧
      predictGlm engine artifacts frame task (without factors f) reduced = .ok mu ∧
      termCount engine artifacts frame factors f = .ok t.df ∧
      t.deviance_delta = task.deviance mu - deviance := by
  unfold typeIIIOf at h
  split_ifs at h with hop
  · cases Except.ok.inj h
  · obtain ⟨fit, hfit, h⟩ := bind_eq_ok.mp h
    cases fit with
    | none => cases pure_eq_ok.mp h
    | some reduced =>
      obtain ⟨mu, hmu, h⟩ := bind_eq_ok.mp h
      obtain ⟨df, hdf, h⟩ := bind_eq_ok.mp h
      obtain rfl := TypeIIIOutcome.tested.inj (pure_eq_ok.mp h)
      exact ⟨by simpa using hop, rfl, reduced, mu, hfit, hmu, hdf, rfl⟩

theorem omitted_of_outcome {o : TypeIIIOmission}
    (h : typeIIIOf engine artifacts frame exposure task factors deviance f = .ok (.omitted o)) :
    (operandIds factors).contains f.id = true ∧ o.factor = f.slug := by
  unfold typeIIIOf at h
  split_ifs at h with hop
  · obtain rfl := TypeIIIOutcome.omitted.inj (Except.ok.inj h)
    exact ⟨hop, rfl⟩
  · obtain ⟨fit, hfit, h⟩ := bind_eq_ok.mp h
    cases fit with
    | none => cases pure_eq_ok.mp h
    | some reduced =>
      obtain ⟨mu, -, h⟩ := bind_eq_ok.mp h
      obtain ⟨df, -, h⟩ := bind_eq_ok.mp h
      cases pure_eq_ok.mp h

/-- The tests and omissions of a run come from its factors. -/
theorem mem_typeIII (hmany : 2 ≤ factors.length) {tests : List (TypeIIITest F)}
    {omitted : List TypeIIIOmission}
    (h : typeIII engine artifacts frame exposure task factors deviance = .ok (tests, omitted)) :
    (∀ t, t ∈ tests ↔ ∃ f ∈ factors,
      typeIIIOf engine artifacts frame exposure task factors deviance f = .ok (.tested t)) ∧
    ∀ o, o ∈ omitted ↔ ∃ f ∈ factors,
      typeIIIOf engine artifacts frame exposure task factors deviance f = .ok (.omitted o) := by
  rw [typeIII, if_neg (by omega)] at h
  obtain ⟨outcomes, houtcomes, h⟩ := bind_eq_ok.mp h
  obtain ⟨rfl, rfl⟩ := Prod.mk.inj (pure_eq_ok.mp h)
  have hall := mapM_eq_ok.mp houtcomes
  have hmem : ∀ o, o ∈ outcomes ↔ ∃ f ∈ factors,
      typeIIIOf engine artifacts frame exposure task factors deviance f = .ok o := by
    intro o
    constructor
    · exact fun ho => exists_of_forall₂ hall.flip ho
    · rintro ⟨f, hf, hok⟩
      obtain ⟨o', ho', hok'⟩ := exists_of_forall₂ hall hf
      exact Except.ok.inj (hok'.symm.trans hok) ▸ ho'
  constructor
  · intro t
    rw [List.mem_filterMap, ← hmem]
    constructor
    · rintro ⟨o, ho, hsome⟩
      cases o with
      | tested t' => exact Option.some.inj hsome ▸ ho
      | omitted _ | passed => cases hsome
    · exact fun ht => ⟨_, ht, rfl⟩
  · intro o
    rw [List.mem_filterMap, ← hmem]
    constructor
    · rintro ⟨o', ho, hsome⟩
      cases o' with
      | omitted o' => exact Option.some.inj hsome ▸ ho
      | tested _ | passed => cases hsome
    · exact fun ho => ⟨_, ho, rfl⟩

variable (hfit : fitGlm engine artifacts frame exposure task factors = .ok (some full))
  (hslugs : (factors.map Factor.slug).Nodup) (hids : (factors.map Factor.id).Nodup)

include hfit hslugs hids

theorem nested_iff {reduced : GlmFit F height} (hf : f ∈ factors)
    (hfree : (operandIds factors).contains f.id = false)
    (h : fitGlm engine artifacts frame exposure task (without factors f) = .ok (some reduced)) :
    reduced.columns.entries = full.columns.entries.filter (fun e => termSlug e.1 ≠ f.slug) ↔
      ∀ g ∈ factors, Released factors f g → ∀ s,
        seriesOf engine artifacts frame factors g = some s → distinct (s.text engine) ≤ 1 := by
  obtain ⟨r, hr, hd⟩ := of_fitGlm hfit
  obtain ⟨r', hr', hd'⟩ := of_fitGlm h
  rw [entries_eq_blocks hr hslugs hd, entries_eq_blocks hr' (slugs_without hslugs) hd',
    blocks_without_iff hslugs hids hf hfree]
  refine forall₂_congr fun g hg => forall_congr' fun hreleased => ?_
  obtain ⟨s, hs⟩ := exists_seriesOf hr hg
  have hkind := kind_of_released hr hids hg hreleased hs
  have hwritable : Writable engine artifacts frame factors exposure g := writable_of_levels hs hkind
  have hlength := length_block hwritable hs
  rw [if_pos hkind] at hlength
  rw [← List.length_eq_zero_iff, hlength]
  constructor
  · intro h s' hs'
    obtain rfl := Option.some.inj (hs.symm.trans hs')
    omega
  · intro h
    have hle := h s hs
    omega

omit hids in
theorem df_iff (hf : f ∈ termFactors factors) {df : ℕ}
    (hdf : termCount engine artifacts frame factors f = .ok df) :
    df = (full.columns.entries.filter fun e => termSlug e.1 = f.slug).length ↔
      ∀ s, seriesOf engine artifacts frame factors f = some s → s.kind = .levels →
        nullLevel (s.text engine) = 0 ∧ 2 ≤ distinct (s.text engine) := by
  obtain ⟨r, hr, hd⟩ := of_fitGlm hfit
  obtain ⟨s, hs⟩ := exists_seriesOf hr (mem_termFactors.mp hf).1
  rw [termCount_eq hr (mem_termFactors.mp hf).1 hs] at hdf
  obtain rfl := Except.ok.inj hdf
  rw [entries_eq_blocks hr hslugs hd, filter_block hslugs hf,
    length_block ((design_ok hr hslugs).mp ⟨_, hd⟩ f hf) hs]
  have hnull : nullLevel (s.text engine) ≤ 1 := by
    unfold nullLevel
    split_ifs <;> omega
  by_cases hkind : s.kind = .levels
  · rw [if_pos hkind, if_pos hkind, uniqueCount, count_eq_iff hnull]
    constructor
    · intro h s' hs' _
      obtain rfl := Option.some.inj (hs.symm.trans hs')
      exact h
    · exact fun h => h s hs hkind
  · rw [if_neg hkind, if_neg hkind]
    refine iff_of_true rfl fun s' hs' hkind' => ?_
    obtain rfl := Option.some.inj (hs.symm.trans hs')
    exact absurd hkind' hkind

/-- Tests that are likelihood ratio tests leave no term out. -/
theorem testable_of_ratios (hmany : 2 ≤ factors.length) (hgrammar : ∀ f ∈ factors, IsFactorSlug f.slug)
    (h : TestsAreRatios engine artifacts frame exposure task factors full) :
    Testable engine artifacts frame exposure task factors := by
  obtain ⟨r, hr, -⟩ := of_fitGlm hfit
  obtain ⟨mu, tests, omitted, hmu, hrun, hratio⟩ := h
  obtain ⟨htests, homitted⟩ := mem_typeIII hmany hrun
  have htested : ∀ f ∈ termFactors factors, ∃ t reduced, t ∈ tests ∧ t.factor = f.slug ∧
      fitGlm engine artifacts frame exposure task (without factors f) = .ok (some reduced) ∧
      termCount engine artifacts frame factors f = .ok t.df := by
    intro f hf
    have hmem := (mem_termFactors.mp hf).1
    rcases hratio.covered f hf with ⟨t, ht, hslug⟩ | ⟨o, ho, hslug⟩
    · obtain ⟨g, hg, houtcome⟩ := (htests t).mp ht
      obtain ⟨-, hgslug, reduced, -, hreduced, -, hdf, -⟩ := tested_of_outcome houtcome
      obtain rfl := eq_of_slug hslugs hg hmem (hgslug.symm.trans hslug)
      exact ⟨t, reduced, ht, hslug, hreduced, hdf⟩
    · obtain ⟨g, hg, houtcome⟩ := (homitted o).mp ho
      obtain ⟨hop, hgslug⟩ := omitted_of_outcome houtcome
      obtain rfl := eq_of_slug hslugs hg hmem (hgslug.symm.trans hslug)
      rw [free_of_term hr hids hf] at hop
      cases hop
  have hnested : ∀ f ∈ termFactors factors, ∃ t reduced,
      fitGlm engine artifacts frame exposure task (without factors f) = .ok (some reduced) ∧
      termCount engine artifacts frame factors f = .ok t.df ∧
      reduced.columns.entries = full.columns.entries.filter (fun e => termSlug e.1 ≠ f.slug) ∧
      (t : TypeIIITest F).df =
        (full.columns.entries.filter fun e => termSlug e.1 = f.slug).length := by
    intro f hf
    obtain ⟨t, reduced, ht, hslug, hreduced, hdf⟩ := htested f hf
    obtain ⟨g, hg, hgslug, reduced', hreduced', hentries, hcount, -⟩ := hratio.nested t ht
    obtain rfl := eq_of_slug hslugs hg (mem_termFactors.mp hf).1 (hgslug.symm.trans hslug)
    exact ⟨t, reduced', hreduced', hdf, hentries, hcount⟩
  refine ⟨legible_of_predictGlm hfit hslugs hgrammar hmu, fun f hf => ?_, fun f hf => ?_,
    fun f hf => ?_⟩
  · obtain ⟨_, reduced, hreduced, -⟩ := hnested f hf
    exact ⟨reduced, hreduced⟩
  · obtain ⟨t, _, -, hdf, -, hcount⟩ := hnested f hf
    exact (df_iff hfit hslugs hf hdf).mp hcount
  · obtain ⟨_, reduced, hreduced, -, hentries, -⟩ := hnested f hf
    exact (nested_iff hfit hslugs hids (mem_termFactors.mp hf).1 (free_of_term hr hids hf)
      hreduced).mp hentries

/-- The shorter models are scored as they are fitted. -/
theorem predictGlm_without (hgrammar : ∀ f ∈ factors, IsFactorSlug f.slug)
    (h : Testable engine artifacts frame exposure task factors)
    (hnumbers : NumbersNamed engine artifacts frame factors) (hf : f ∈ termFactors factors)
    {reduced : GlmFit F height}
    (hreduced : fitGlm engine artifacts frame exposure task (without factors f) = .ok (some reduced)) :
    predictGlm engine artifacts frame task (without factors f) reduced =
      .ok (task.predicted reduced.columns reduced.coefficients) := by
  obtain ⟨r, hr, -⟩ := of_fitGlm hfit
  have hfree := free_of_term hr hids hf
  -- What has a term in the shorter model alone is released, and has no column.
  have hcases : ∀ g ∈ termFactors (without factors f), ∀ s,
      seriesOf engine artifacts frame (without factors f) g = some s →
        seriesOf engine artifacts frame factors g = some s ∧
          (g ∈ termFactors factors ∨ s.kind = .levels ∧ distinct (s.text engine) ≤ 1) := by
    intro g hg s hs
    obtain ⟨hmem, -, hterm⟩ := mem_termFactors_without.mp hg
    rw [seriesOf_without hfree hmem] at hs
    refine ⟨hs, ?_⟩
    by_cases hg' : g ∈ termFactors factors
    · exact .inl hg'
    · have hno := mt mem_termFactors.mpr hg'
      rw [not_and] at hno
      obtain ⟨hplain, hop⟩ := not_or.mp (hno hmem)
      have hreleased : Released factors f g :=
        ⟨hplain, by simpa using hop, hterm.resolve_left hplain⟩
      exact .inr ⟨kind_of_released hr hids hmem hreleased hs, h.released f hf g hmem hreleased s hs⟩
  refine predictGlm_eq hreduced (slugs_without hslugs)
    (fun g hg => hgrammar g (mem_without.mp hg).1) ?_ ?_
  · intro g hg s hs hkind level hlevel
    obtain ⟨hs, hterm | ⟨-, hone⟩⟩ := hcases g hg s hs
    · exact h.legible g hterm s hs hkind level hlevel
    · have hlength := List.length_pos_of_mem hlevel
      rw [List.length_tail, length_baseFirst] at hlength
      omega
  · intro g hg s hs hkind
    obtain ⟨hs, hterm | ⟨hlevels, -⟩⟩ := hcases g hg s hs
    · exact hnumbers g hterm s hs hkind
    · exact absurd hlevels hkind

theorem typeIII_ok (hgrammar : ∀ f ∈ factors, IsFactorSlug f.slug)
    (h : Testable engine artifacts frame exposure task factors)
    (hnumbers : NumbersNamed engine artifacts frame factors) (hf : f ∈ factors) :
    ∃ o, typeIIIOf engine artifacts frame exposure task factors deviance f = .ok o ∧
      (f ∈ termFactors factors → ∃ t, o = .tested t) := by
  obtain ⟨r, hr, -⟩ := of_fitGlm hfit
  unfold typeIIIOf
  by_cases hop : (operandIds factors).contains f.id = true
  · rw [if_pos hop]
    refine ⟨_, rfl, fun hterm => ?_⟩
    rw [free_of_term hr hids hterm] at hop
    cases hop
  · have hterm : f ∈ termFactors factors := mem_termFactors.mpr ⟨hf, Or.inr (by simpa using hop)⟩
    obtain ⟨reduced, hreduced⟩ := h.fits f hterm
    obtain ⟨s, hs⟩ := exists_seriesOf hr hf
    have hmu := predictGlm_without hfit hslugs hids hgrammar h hnumbers hterm hreduced
    rw [if_neg hop, hreduced]
    exact ⟨_, bind_eq_ok.mpr ⟨some reduced, rfl, bind_eq_ok.mpr ⟨_, hmu,
      bind_eq_ok.mpr ⟨_, termCount_eq hr hf hs, rfl⟩⟩⟩, fun _ => ⟨_, rfl⟩⟩

theorem ratios_of_testable [IsStrictOrderedRing F] (hmany : 2 ≤ factors.length)
    (hgrammar : ∀ f ∈ factors, IsFactorSlug f.slug)
    (h : Testable engine artifacts frame exposure task factors)
    (hnumbers : NumbersNamed engine artifacts frame factors)
    (hweights : ∀ i j, task.weights i = task.weights j) (htreated : task.treated = task.response) :
    TestsAreRatios engine artifacts frame exposure task factors full := by
  obtain ⟨r, hr, -⟩ := of_fitGlm hfit
  have hok : ∀ f ∈ factors, ∃ o, typeIIIOf engine artifacts frame exposure task factors
      (task.deviance (task.predicted full.columns full.coefficients)) f = .ok o ∧
        (f ∈ termFactors factors → ∃ t, o = .tested t) :=
    fun f hf => typeIII_ok hfit hslugs hids hgrammar h hnumbers hf
  obtain ⟨outcomes, houtcomes⟩ := exists_mapM_ok fun f hf =>
    (hok f hf).imp fun _ ho => ho.1
  have hrun : typeIII engine artifacts frame exposure task factors
      (task.deviance (task.predicted full.columns full.coefficients)) =
        .ok (outcomes.filterMap TypeIIIOutcome.test?, outcomes.filterMap TypeIIIOutcome.omission?) := by
    rw [typeIII, if_neg (by omega), houtcomes]
    rfl
  obtain ⟨htests, -⟩ := mem_typeIII hmany hrun
  refine ⟨_, _, _, predictGlm_eq hfit hslugs hgrammar h.legible hnumbers, hrun, fun f hf => ?_,
    fun t ht => ?_⟩
  · obtain ⟨o, ho, htested⟩ := hok f (mem_termFactors.mp hf).1
    obtain ⟨t, rfl⟩ := htested hf
    exact Or.inl ⟨t, (htests t).mpr ⟨f, (mem_termFactors.mp hf).1, ho⟩,
      (tested_of_outcome ho).2.1⟩
  · obtain ⟨f, hf, houtcome⟩ := (htests t).mp ht
    obtain ⟨hfree, hslug, reduced, mu, hreduced, hmu, hdf, hdelta⟩ := tested_of_outcome houtcome
    have hterm : f ∈ termFactors factors := mem_termFactors.mpr ⟨hf, Or.inr hfree⟩
    have hentries := (nested_iff hfit hslugs hids hf hfree hreduced).mpr (h.released f hterm)
    rw [predictGlm_without hfit hslugs hids hgrammar h hnumbers hterm hreduced] at hmu
    refine ⟨f, hf, hslug, reduced, hreduced, hentries,
      (df_iff hfit hslugs hterm hdf).mpr (h.levels f hterm), fun hfull _ => ?_⟩
    rw [hdelta, ← Except.ok.inj hmu]
    exact delta_nonneg hweights htreated hentries hfull

omit hfit hslugs hids in
/-- The tests of a fit are likelihood ratio tests where the factors have ids and slugs of their own,
their terms can be tested, no number is named as the intercept, all rows have one weight and the
response is untreated. Of factors with ids and slugs of their own they are so only where the terms
can be tested. -/
theorem testsAreRatios [IsStrictOrderedRing F] (hmany : 2 ≤ factors.length)
    (hgrammar : ∀ f ∈ factors, IsFactorSlug f.slug)
    (hfit : fitGlm engine artifacts frame exposure task factors = .ok (some full)) :
    ((factors.map Factor.slug).Nodup → (factors.map Factor.id).Nodup →
      Testable engine artifacts frame exposure task factors →
      NumbersNamed engine artifacts frame factors →
      (∀ i j, task.weights i = task.weights j) → task.treated = task.response →
      TestsAreRatios engine artifacts frame exposure task factors full) ∧
    ((factors.map Factor.slug).Nodup → (factors.map Factor.id).Nodup →
      TestsAreRatios engine artifacts frame exposure task factors full →
      Testable engine artifacts frame exposure task factors) :=
  ⟨fun hslugs hids => ratios_of_testable hfit hslugs hids hmany hgrammar,
    fun hslugs hids => testable_of_ratios hfit hslugs hids hmany hgrammar⟩

end Main

/-! ### Two areas and three fuels -/

/-- A model of ones, which a design without coefficients gives. -/
def onesTask (height : ℕ) : GlmTask ℚ height where
  response _ := 1
  treated _ := 1
  weights _ := 1
  offset _ := 0
  unit_deviance y mu := (y - mu) ^ 2
  inverse_link := id
  estimate _ := some (1, fun _ => 0)
  survival _ _ := 1
  weights_pos _ := one_pos

theorem of_fits {N W : Type} [LinearOrder W] {height : ℕ} {engine : Engine N ℚ}
    {artifacts : Artifacts ℚ} {frame : Frame N height} {exposure : (Fin height → Bool) → W}
    {factors : List Factor} (h : (fitGlm engine artifacts frame exposure (onesTask height)
      factors).toOption.join.isSome = true) :
    ∃ full, fitGlm engine artifacts frame exposure (onesTask height) factors = .ok (some full) := by
  cases hfit : fitGlm engine artifacts frame exposure (onesTask height) factors with
  | error e =>
    rw [hfit] at h
    cases h
  | ok o =>
    cases o with
    | none =>
      rw [hfit] at h
      cases h
    | some full => exact ⟨full, rfl⟩

theorem main_effects_tested : ∃ full,
    fitGlm textEngine noArtifacts areasAndFuels rowCount (onesTask 6) [areaFactor, fuelFactor] =
      .ok (some full) ∧
    TestsAreRatios textEngine noArtifacts areasAndFuels rowCount (onesTask 6)
      [areaFactor, fuelFactor] full := by
  have hfits : ∃ full, fitGlm textEngine noArtifacts areasAndFuels rowCount (onesTask 6)
      [areaFactor, fuelFactor] = .ok (some full) := of_fits (by decide)
  obtain ⟨full, hfit⟩ := hfits
  have hterms : termFactors [areaFactor, fuelFactor] = [areaFactor, fuelFactor] := by decide
  have hlevels : ∀ f ∈ [areaFactor, fuelFactor], (seriesOf textEngine noArtifacts areasAndFuels
      [areaFactor, fuelFactor] f).all (fun s => decide (nullLevel (s.text textEngine) = 0 ∧
        2 ≤ distinct (s.text textEngine))) = true := by decide
  have hclean : ∀ f ∈ [areaFactor, fuelFactor], (seriesOf textEngine noArtifacts areasAndFuels
      [areaFactor, fuelFactor] f).all (fun s => (baseFirst rowCount (s.text textEngine)).tail.all
        fun level => decide ('[' ∉ level.toList ∧ '\n' ∉ level.toList)) = true := by decide
  have hslugs : ∀ f ∈ [areaFactor, fuelFactor], f.slug ≠ intercept := by decide
  refine ⟨full, hfit, (testsAreRatios (by decide) (by decide) hfit).1 (by decide) (by decide)
    ⟨fun f hf s hs _ level hlevel => ?_, fun f hf => ?_, fun f hf s hs _ => ?_,
      fun f _ g _ hreleased => ?_⟩
    (fun f hf _ _ _ => hslugs f (hterms ▸ hf)) (fun _ _ => rfl) rfl⟩
  · have hall := hclean f (hterms ▸ hf)
    rw [hs] at hall
    simpa [CleanLevel] using List.all_eq_true.mp hall level hlevel
  · rw [hterms] at hf
    apply of_fits
    revert f
    decide
  · rw [hterms] at hf
    have hall := hlevels f hf
    rw [hs] at hall
    simpa using hall
  · exact absurd hreleased.2.1 (by simp [operandIds, areaFactor, fuelFactor])

/-- The cross of areas and fuels is dropped for the areas and the fuels, which have columns of their
own. -/
theorem cross_released : ∃ full,
    fitGlm textEngine noArtifacts areasAndFuels rowCount (onesTask 6)
      [areaFactor, fuelFactor, areaByFuel] = .ok (some full) ∧
    ¬ TestsAreRatios textEngine noArtifacts areasAndFuels rowCount (onesTask 6)
      [areaFactor, fuelFactor, areaByFuel] full := by
  have hfits : ∃ full, fitGlm textEngine noArtifacts areasAndFuels rowCount (onesTask 6)
      [areaFactor, fuelFactor, areaByFuel] = .ok (some full) := of_fits (by decide)
  obtain ⟨full, hfit⟩ := hfits
  refine ⟨full, hfit, fun h => ?_⟩
  have htestable := testable_of_ratios hfit (by decide) (by decide) (by decide) (by decide) h
  have hsome : (seriesOf textEngine noArtifacts areasAndFuels [areaFactor, fuelFactor, areaByFuel]
      areaFactor).isSome = true := by decide
  obtain ⟨s, hs⟩ := Option.isSome_iff_exists.mp hsome
  have hlevels := htestable.released areaByFuel (by decide) areaFactor (by decide)
    ⟨by decide, by decide, by decide⟩ s hs
  have htwo : (seriesOf textEngine noArtifacts areasAndFuels [areaFactor, fuelFactor, areaByFuel]
      areaFactor).map (fun s => distinct (s.text textEngine)) = some 2 := by decide
  rw [hs] at htwo
  simp at htwo
  omega

end GiPricing.Factors.Frames
