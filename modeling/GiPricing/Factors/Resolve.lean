import GiPricing.Rating.Inline
import GiPricing.Score.Value

/-! # Factors and the predictors built on them

The resolution of a model's factors on one row, and the linear predictor that its coefficients
give. The columns that a resolution reads for a term are named by the factors of that slug.
-/

namespace GiPricing.Factors

open Failure

abbrev UUID := ℕ

inductive FactorType
  | identity | banding | grouping | interaction | spline | polynomial | offset | expression
  deriving DecidableEq, Repr

inductive FactorIntent | risk | control | offset | diagnostic
  deriving DecidableEq, Repr

/-- A transformation over dataset columns; the slug of a factor holds no bracket. -/
structure Factor where
  id : UUID
  slug : String
  type : FactorType
  source_columns : List String := []
  intent : FactorIntent := .risk
  prohibited : Bool := false
  banding_id : Option UUID := none
  grouping_id : Option UUID := none
  expression : Option String := none
  operand_factor_ids : List UUID := []
  slug_ok : '[' ∉ slug.toList

/-- A model that cannot be scored: a factor that does not resolve, or a coded refusal. -/
inductive ScoreFailure
  | factorResolution (slug : String)
  | prediction (code : String)
  deriving DecidableEq, Repr

abbrev Row := Dict Value

/-- What is computed in floating point: the sum of a predictor, the cells as numbers and as texts,
the column that a banding, a grouping or a formula makes of the cells of its sources, and a
prediction as the decimal it writes. -/
structure Numerics (F : Type) where
  zero : F
  one : F
  add : F → F → F
  mul : F → F → F
  number : Value → Except ScoreFailure F
  levelText : Value → String
  indicator : Value → String → F
  logOf : Value → Except ScoreFailure F
  isFinite : F → Bool
  inverseLink : String → F → Except ScoreFailure F
  derive : Factor → List Value → Except ScoreFailure Value
  sameValue : Value → Value → Bool
  exact : F → Option ℚ

/-- A dataset column, or the column a factor's transformation adds under its own slug. -/
inductive Column
  | source (name : String)
  | resolved (slug : String)
  deriving DecidableEq, Repr

def Factor.source (f : Factor) : String := f.source_columns.headD ""

def Factor.column (f : Factor) : Column :=
  if f.type = .identity then .source f.source else .resolved f.slug

/-! ## Resolving factors -/

section Resolve

variable {F : Type} (num : Numerics F) (row : Row) (factors : List Factor)

/-- The series of a factor that is not an interaction. -/
def plainSeries (f : Factor) : Except ScoreFailure Value := match f.type with
  | .identity => require (row.get? f.source) (.factorResolution f.slug)
  | .banding | .grouping | .expression => num.derive f (f.source_columns.filterMap row.get?)
  | .interaction | .spline | .polynomial | .offset => .error (.factorResolution f.slug)

def checkFactor (f : Factor) : Except ScoreFailure PUnit :=
  ensure (f.prohibited = false ∧ f.intent ≠ .offset ∧ f.intent ≠ .diagnostic ∧
    ∀ c ∈ f.source_columns, (row.get? c).isSome = true) (.factorResolution f.slug)

/-- What resolving factors adds to a row: the columns produced under the slugs, the column each
term reads, and the series by the ids of the factors. -/
structure Resolution where
  produced : Dict Value := .empty
  terms : Dict Column := .empty
  resolved : List (UUID × Value) := []

/-- The resolved column of a name: the produced one, else the row's own. The code looks both up
under one name, `<slug>__resolved` for a produced one; the row is taken to have no such column of
its own. -/
def Resolution.column (r : Resolution) : Column → Option Value
  | .source name => row.get? name
  | .resolved slug => r.produced.get? slug

def operandIds : List UUID :=
  (factors.filter fun f => f.type = .interaction).flatMap Factor.operand_factor_ids

/-- The series of a factor, which is a term of its own unless some interaction crosses it. -/
def Resolution.withSeries (r : Resolution) (f : Factor) (series : Value) : Resolution where
  produced := if f.type = .identity then r.produced else r.produced.insert f.slug series
  terms := if (operandIds factors).contains f.id then r.terms else r.terms.insert f.slug f.column
  resolved := (f.id, series) :: r.resolved

/-- The first pass: the factors that are not interactions. -/
def resolvePlain (r : Resolution) (f : Factor) : Except ScoreFailure Resolution := do
  checkFactor row f
  if f.type = .interaction then return r
  else
    let series ← plainSeries num row f
    return r.withSeries factors f series

def crossSeparator : String := " | "

def isLevels : Value → Bool
  | .text _ | .bool _ => true
  | _ => false

/-- The level of one side of a cross. -/
def operandLevel (r : Resolution) (f : Factor) (id : UUID) : Except ScoreFailure String := do
  let operand ← require (factors.reverse.find? fun g => g.id = id) (.factorResolution f.slug)
  if operand.type = .interaction then .error (.factorResolution f.slug)
  else
    let series ← require (r.resolved.lookup id) (.factorResolution f.slug)
    if isLevels series then return num.levelText series else .error (.factorResolution f.slug)

/-- The second pass: an interaction is the cross of the levels of its operands. -/
def resolveCross (r : Resolution) (f : Factor) : Except ScoreFailure Resolution :=
  if f.type = .interaction then do
    let levels ← f.operand_factor_ids.mapM (operandLevel num factors r f)
    return { r with
      produced := r.produced.insert f.slug (.text (crossSeparator.intercalate levels))
      terms := r.terms.insert f.slug f.column }
  else .ok r

def resolveFactorColumns : Except ScoreFailure Resolution := do
  let plain ← factors.foldlM (resolvePlain num row factors) {}
  factors.foldlM (resolveCross num factors) plain

end Resolve

/-! ## The terms of a coefficient -/

structure Coefficient (F : Type) where
  term : String
  estimate : F

/-- The text that `$` ends: a final line break may follow it. -/
def beforeEnd (text : List Char) : List Char := match text.reverse with
  | '\n' :: rest => rest.reverse
  | _ => text

/-- The slug and the level of what stands before the closing bracket, read from its end: the last
bracket opens the level, and neither side holds a line break. -/
def readDummy (body : List Char) : Option (String × String) :=
  match body.dropWhile (· ≠ '[') with
  | '[' :: c :: slug =>
    if '\n' ∈ body then none
    else some (String.ofList (c :: slug).reverse,
      String.ofList (body.takeWhile (· ≠ '[')).reverse)
  | _ => none

/-- The slug and the level of a dummy term `slug[level]`. -/
def dummy? (term : String) : Option (String × String) :=
  match (beforeEnd term.toList).reverse with
  | ']' :: body => readDummy body
  | _ => none

/-- `term.partition("[")[0]`. -/
def termSlug (term : String) : String := String.ofList (term.toList.takeWhile (· ≠ '['))

theorem of_readDummy {body : List Char} {slug level : String}
    (h : readDummy body = some (slug, level)) :
    body = level.toList.reverse ++ '[' :: slug.toList.reverse ∧ '[' ∉ level.toList ∧
      '\n' ∉ body := by
  unfold readDummy at h
  split at h
  · rename_i c s hdrop
    split_ifs at h with hbreak
    obtain ⟨rfl, rfl⟩ := Prod.mk.inj (Option.some.inj h)
    refine ⟨?_, ?_, hbreak⟩
    · simp only [String.toList_ofList, List.reverse_reverse]
      rw [← hdrop]
      exact List.takeWhile_append_dropWhile.symm
    · intro hm
      rw [String.toList_ofList, List.mem_reverse] at hm
      simpa using List.mem_takeWhile_imp hm
  · cases h

theorem readDummy_append {level slug : List Char} (hlevel : '[' ∉ level) (hslug : slug ≠ [])
    (hbreak : '\n' ∉ level ++ '[' :: slug) :
    readDummy (level ++ '[' :: slug) =
      some (String.ofList slug.reverse, String.ofList level.reverse) := by
  have hplain : ∀ d ∈ level, decide (d ≠ '[') = true := by
    intro d hd
    rw [decide_eq_true_eq]
    rintro rfl
    exact hlevel hd
  obtain ⟨c, s, rfl⟩ := List.exists_cons_of_ne_nil hslug
  unfold readDummy
  rw [List.takeWhile_append_of_pos hplain, List.dropWhile_append_of_pos hplain,
    List.takeWhile_cons_of_neg (by decide), List.dropWhile_cons_of_neg (by decide),
    List.append_nil]
  exact if_neg hbreak

theorem exists_beforeEnd (text : List Char) : ∃ rest, text = beforeEnd text ++ rest := by
  unfold beforeEnd
  split
  · rename_i rest heq
    have htext := congrArg List.reverse heq
    rw [List.reverse_reverse, List.reverse_cons] at htext
    exact ⟨['\n'], htext⟩
  · exact ⟨[], (List.append_nil _).symm⟩

theorem toList_of_dummy {term slug level : String} (h : dummy? term = some (slug, level)) :
    ∃ rest, term.toList = slug.toList ++ '[' :: rest := by
  obtain ⟨last, hlast⟩ := exists_beforeEnd term.toList
  unfold dummy? at h
  split at h
  · rename_i body heq
    obtain ⟨rfl, -⟩ := of_readDummy h
    refine ⟨level.toList ++ [']'] ++ last, ?_⟩
    have hterm := congrArg List.reverse heq
    rw [List.reverse_reverse] at hterm
    rw [hlast, hterm]
    simp
  · cases h

theorem termSlug_of_dummy {term slug level : String} (h : dummy? term = some (slug, level))
    (hslug : '[' ∉ slug.toList) : termSlug term = slug := by
  obtain ⟨rest, hrest⟩ := toList_of_dummy h
  have hplain : ∀ c ∈ slug.toList, decide (c ≠ '[') = true := by
    intro c hc
    rw [decide_eq_true_eq]
    rintro rfl
    exact hslug hc
  rw [termSlug, hrest, List.takeWhile_append_of_pos hplain]
  simp

theorem termSlug_of_plain {term : String} (h : '[' ∉ term.toList) : termSlug term = term := by
  have hplain : term.toList.takeWhile (· ≠ '[') = term.toList := by
    rw [List.takeWhile_eq_self_iff]
    intro c hc
    rw [decide_eq_true_eq]
    rintro rfl
    exact h hc
  rw [termSlug, hplain, String.ofList_toList]

/-! ## The linear predictor -/

section Predictor

variable {F : Type} (num : Numerics F)

inductive OffsetSpec
  | none
  | column (name : String)
  | logColumn (name : String)
  | model
  deriving DecidableEq

def intercept : String := "intercept"

/-- One column of the design: the factor a term names, or the indicator of its level. -/
def designColumn (row : Row) (r : Resolution) (term : String) : Except ScoreFailure F :=
  let unresolved := ScoreFailure.prediction "MODEL_TERM_UNRESOLVED"
  if term = intercept then .ok num.one
  else match dummy? term with
    | some (slug, level) => do
      let column ← require (r.terms.get? slug) unresolved
      let value ← require (r.column row column) unresolved
      return num.indicator value level
    | none => do
      let column ← require (r.terms.get? term) unresolved
      let value ← require (r.column row column) unresolved
      num.number value

structure Glm (F : Type) where
  coefficients : List (Coefficient F)
  factors : List Factor
  link : String
  offset : OffsetSpec

/-- The offset on the scale of the linear predictor. -/
def offsetValue (row : Row) (spec : OffsetSpec) (modelOffset : Option F) :
    Except ScoreFailure (Option F) :=
  let missing := ScoreFailure.prediction "MODEL_OFFSET_MISSING"
  match spec with
  | .none => .ok none
  | .model => do
    let value ← require modelOffset missing
    if num.isFinite value then return some value else .error missing
  | .column name => do
    let value ← require (row.get? name) missing
    (num.number value).map some
  | .logColumn name => do
    let value ← require (row.get? name) missing
    (num.logOf value).map some

/-- The sum of the coefficients' columns, in the order of the coefficients. -/
def designSum (row : Row) (r : Resolution) (coefficients : List (Coefficient F)) :
    Except ScoreFailure F :=
  coefficients.foldlM (fun eta c =>
    (designColumn num row r c.term).map fun x => num.add eta (num.mul c.estimate x)) num.zero

/-- `linear_predictor_row`. -/
def Glm.linearPredictorRow (g : Glm F) (row : Row) (modelOffset : Option F) :
    Except ScoreFailure F := do
  let r ← resolveFactorColumns num row g.factors
  let eta ← designSum num row r g.coefficients
  let offset ← offsetValue num row g.offset modelOffset
  return (offset.map (num.add eta)).getD eta

/-- `predict_glm_row`. -/
def Glm.predictRow (g : Glm F) (row : Row) (modelOffset : Option F) : Except ScoreFailure F := do
  let eta ← g.linearPredictorRow num row modelOffset
  num.inverseLink g.link eta

end Predictor

end GiPricing.Factors
