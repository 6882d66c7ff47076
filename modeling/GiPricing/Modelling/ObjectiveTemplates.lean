import GiPricing.Numeric.Numerals
import Mathlib.Analysis.SpecialFunctions.Log.Basic
import Mathlib.Analysis.SpecialFunctions.Pow.Real
import Mathlib.Order.WithBot

/-! # The catalogue of objective templates

Each template is three functions of the response and the raw score, with the scores at which its
branch flips. The arithmetic is over the reals. The case weight is multiplied in once, outside.
-/

namespace GiPricing.Modelling

attribute [local instance] Numerals.two

noncomputable section

inductive ObjectiveTemplate
  | poisson
  | gamma
  | tweedie
  | cappedGamma
  | splicedSeverity
  | asymmetricSquared
  | asymmetricPoisson
  | huber
  | pseudoHuber
  | quantile
  | zeroInflatedPoisson
  | focalBinomial
  deriving DecidableEq

inductive HessianStrategy
  | clipToMin
  | abs
  | gaussNewton
  deriving DecidableEq

/-! ## The contract -/

inductive ParameterKind
  | float
  | moneyMinor
  deriving DecidableEq

structure TemplateParameter where
  name : String
  kind : ParameterKind := .float
  minimum : Option ℝ := none
  maximum : Option ℝ := none
  minimum_exclusive : Bool := false
  maximum_exclusive : Bool := false
  default : Option ℝ := none

/-- `check`: a valid setting of the parameter. Money is integer minor units. -/
def TemplateParameter.Check (parameter : TemplateParameter) (value : ℝ) : Prop :=
  (parameter.kind = .moneyMinor → ∃ n : ℤ, value = n) ∧
    (∀ low ∈ parameter.minimum, if parameter.minimum_exclusive then low < value else low ≤ value) ∧
    ∀ high ∈ parameter.maximum, if parameter.maximum_exclusive then value < high else value ≤ high

def templateParameters : ObjectiveTemplate → List TemplateParameter
  | .poisson => []
  | .gamma => []
  | .tweedie => [{
      name := "p"
      minimum := some 1
      maximum := some 2
      minimum_exclusive := true
      maximum_exclusive := true
      default := some 1.5 }]
  | .cappedGamma => [{
      name := "cap"
      kind := .moneyMinor
      minimum := some 0
      minimum_exclusive := true }]
  | .splicedSeverity => [
      { name := "threshold", kind := .moneyMinor, minimum := some 0, minimum_exclusive := true },
      { name := "tail_shape", minimum := some 0, minimum_exclusive := true, default := some 1.5 }]
  | .asymmetricSquared | .asymmetricPoisson => [
      { name := "w_under", minimum := some 0, minimum_exclusive := true, default := some 2 },
      { name := "w_over", minimum := some 0, minimum_exclusive := true, default := some 1 }]
  | .huber | .pseudoHuber => [{
      name := "delta"
      kind := .moneyMinor
      minimum := some 0
      minimum_exclusive := true }]
  | .quantile => [{
      name := "alpha"
      minimum := some 0
      maximum := some 1
      minimum_exclusive := true
      maximum_exclusive := true
      default := some 0.5 }]
  | .zeroInflatedPoisson => [{
      name := "pi"
      minimum := some 0
      maximum := some 1
      minimum_exclusive := true
      maximum_exclusive := true }]
  | .focalBinomial => [{ name := "gamma", minimum := some 0, default := some 2 }]

/-- The responses of a template's `y_domain`. -/
def YDomain : ObjectiveTemplate → Set ℝ
  | .poisson | .tweedie | .asymmetricSquared | .asymmetricPoisson | .huber | .pseudoHuber
  | .quantile | .zeroInflatedPoisson => Set.Ici 0
  | .gamma | .cappedGamma | .splicedSeverity => Set.Ioi 0
  | .focalBinomial => Set.Icc 0 1

/-- Exactly the template's parameters, each inside its range. -/
def ParametersAreTheTemplatesOwn (template : ObjectiveTemplate) (params : String → Option ℝ) :
    Prop :=
  (∀ name, (params name).isSome → ∃ parameter ∈ templateParameters template,
    parameter.name = name) ∧
    ∀ parameter ∈ templateParameters template, match params parameter.name with
      | none => parameter.default.isSome
      | some value => parameter.Check value

/-- What is compiled of a Custom Objective: what its author chose. -/
structure TemplateObjective where
  template : ObjectiveTemplate
  params : String → Option ℝ
  hessian_strategy : HessianStrategy
  hessian_min : ℝ
  own : ParametersAreTheTemplatesOwn template params
  min_pos : 0 < hessian_min

abbrev Params := String → ℝ

/-- The defaults, filled in over the author's choices. -/
def resolveTemplateParams (template : ObjectiveTemplate) (params : String → Option ℝ) : Params :=
  fun name =>
    match (templateParameters template).find? fun parameter => parameter.name = name with
    | none => 0
    | some parameter => ((params name).or parameter.default).getD 0

/-! ## The arithmetic -/

def mu (f : ℝ) : ℝ := Real.exp f

def poissonLoss (y f : ℝ) (_ : Params) : ℝ := mu f - y * f

def poissonGrad (y f : ℝ) (_ : Params) : ℝ := mu f - y

def poissonHess (_ f : ℝ) (_ : Params) : ℝ := mu f

def gammaLoss (y f : ℝ) (_ : Params) : ℝ := y * Real.exp (-f) + f

def gammaGrad (y f : ℝ) (_ : Params) : ℝ := 1 - y * Real.exp (-f)

def gammaHess (y f : ℝ) (_ : Params) : ℝ := y * Real.exp (-f)

def tweedieLoss (y f : ℝ) (p : Params) : ℝ :=
  -y * Real.exp ((1 - p "p") * f) / (1 - p "p") + Real.exp ((2 - p "p") * f) / (2 - p "p")

def tweedieGrad (y f : ℝ) (p : Params) : ℝ :=
  -y * Real.exp ((1 - p "p") * f) + Real.exp ((2 - p "p") * f)

def tweedieHess (y f : ℝ) (p : Params) : ℝ :=
  -y * (1 - p "p") * Real.exp ((1 - p "p") * f) + (2 - p "p") * Real.exp ((2 - p "p") * f)

def capped (y : ℝ) (p : Params) : ℝ := min y (p "cap")

def cappedGammaLoss (y f : ℝ) (p : Params) : ℝ := gammaLoss (capped y p) f p

def cappedGammaGrad (y f : ℝ) (p : Params) : ℝ := gammaGrad (capped y p) f p

def cappedGammaHess (y f : ℝ) (p : Params) : ℝ := gammaHess (capped y p) f p

/-- A Gamma body and a Pareto tail, whose scale is `mu`. -/
def splicedLoss (y f : ℝ) (p : Params) : ℝ :=
  if p "threshold" < y then
    -p "tail_shape" * f + (p "tail_shape" + 1) * Real.log y - Real.log (p "tail_shape")
  else y * Real.exp (-f) + f

def splicedGrad (y f : ℝ) (p : Params) : ℝ :=
  if p "threshold" < y then -p "tail_shape" else 1 - y * Real.exp (-f)

def splicedHess (y f : ℝ) (p : Params) : ℝ :=
  if p "threshold" < y then 0 else y * Real.exp (-f)

def asymWeight (y f : ℝ) (p : Params) : ℝ := if mu f < y then p "w_under" else p "w_over"

def asymSqLoss (y f : ℝ) (p : Params) : ℝ := asymWeight y f p * (y - mu f) ^ 2

def asymSqGrad (y f : ℝ) (p : Params) : ℝ := 2 * asymWeight y f p * (mu f - y) * mu f

def asymSqHess (y f : ℝ) (p : Params) : ℝ := 2 * asymWeight y f p * (2 * mu f - y) * mu f

def asymSqGn (y f : ℝ) (p : Params) : ℝ := 2 * asymWeight y f p * mu f ^ 2

/-- The score at which `exp f` passes the response; `⊥` where there is none. -/
def logYBoundary (y : ℝ) (_ : Params) : List (WithBot ℝ) :=
  [if 0 < y then (Real.log y : WithBot ℝ) else ⊥]

def asymPoisLoss (y f : ℝ) (p : Params) : ℝ :=
  asymWeight y f p * 2 * ((if 0 < y then y * (Real.log y - f) else 0) - y + mu f)

def asymPoisGrad (y f : ℝ) (p : Params) : ℝ := asymWeight y f p * 2 * (mu f - y)

def asymPoisHess (y f : ℝ) (p : Params) : ℝ := asymWeight y f p * 2 * mu f

/-- `np.sign`. -/
def sign (r : ℝ) : ℝ := if r < 0 then -1 else if 0 < r then 1 else 0

def huberLoss (y f : ℝ) (p : Params) : ℝ :=
  if |y - mu f| ≤ p "delta" then 0.5 * (y - mu f) ^ 2
  else p "delta" * (|y - mu f| - 0.5 * p "delta")

def huberGrad (y f : ℝ) (p : Params) : ℝ :=
  if |y - mu f| ≤ p "delta" then (mu f - y) * mu f else -p "delta" * sign (y - mu f) * mu f

def huberHess (y f : ℝ) (p : Params) : ℝ :=
  if |y - mu f| ≤ p "delta" then (2 * mu f - y) * mu f else -p "delta" * sign (y - mu f) * mu f

def huberGn (y f : ℝ) (p : Params) : ℝ := if |y - mu f| ≤ p "delta" then mu f ^ 2 else 0

def huberBoundaries (y : ℝ) (p : Params) : List (WithBot ℝ) :=
  [if 0 < y - p "delta" then (Real.log (y - p "delta") : WithBot ℝ) else ⊥,
    (Real.log (y + p "delta") : WithBot ℝ)]

/-- The root of `_ph_s`. -/
def phS (y f : ℝ) (p : Params) : ℝ := √(1 + ((y - mu f) / p "delta") ^ 2)

def pseudoHuberLoss (y f : ℝ) (p : Params) : ℝ := (y - mu f) ^ 2 / (phS y f p + 1)

def pseudoHuberGrad (y f : ℝ) (p : Params) : ℝ := -mu f * (y - mu f) / phS y f p

def pseudoHuberHess (y f : ℝ) (p : Params) : ℝ :=
  -mu f * (y - mu f) / phS y f p + mu f ^ 2 / phS y f p -
    mu f ^ 2 * (y - mu f) ^ 2 / (p "delta" ^ 2 * phS y f p ^ 3)

def pseudoHuberGn (y f : ℝ) (p : Params) : ℝ := mu f ^ 2 / phS y f p ^ 3

def pinballWeight (y f : ℝ) (p : Params) : ℝ :=
  if 0 < y - mu f then p "alpha" else p "alpha" - 1

def quantileLoss (y f : ℝ) (p : Params) : ℝ := pinballWeight y f p * (y - mu f)

def quantileGrad (y f : ℝ) (p : Params) : ℝ := -pinballWeight y f p * mu f

def quantileHess (y f : ℝ) (p : Params) : ℝ := -pinballWeight y f p * mu f

def zipA (f : ℝ) (p : Params) : ℝ := (1 - p "pi") * Real.exp (-mu f)

def zipD (f : ℝ) (p : Params) : ℝ := p "pi" + zipA f p

def zipLoss (y f : ℝ) (p : Params) : ℝ :=
  if y = 0 then -Real.log (zipD f p) else mu f - y * f - Real.log (1 - p "pi")

def zipGrad (y f : ℝ) (p : Params) : ℝ :=
  if y = 0 then mu f * zipA f p / zipD f p else mu f - y

def zipHess (y f : ℝ) (p : Params) : ℝ :=
  if y = 0 then mu f * zipA f p / zipD f p - mu f ^ 2 * zipA f p * p "pi" / zipD f p ^ 2
  else mu f

def pFloor : ℝ := 1e-12

def focalProb (f : ℝ) : ℝ := min (max (1 / (1 + Real.exp (-f))) pFloor) (1 - pFloor)

def focalLossOf (y prob u g : ℝ) : ℝ :=
  -(y * u ^ g * Real.log prob + (1 - y) * prob ^ g * Real.log u)

def focalDlDp (y prob u g : ℝ) : ℝ :=
  y * g * u ^ (g - 1) * Real.log prob - y * u ^ g / prob -
    (1 - y) * g * prob ^ (g - 1) * Real.log u + (1 - y) * prob ^ g / u

def focalD2lDp2 (y prob u g : ℝ) : ℝ :=
  -y * g * (g - 1) * u ^ (g - 2) * Real.log prob + 2 * y * g * u ^ (g - 1) / prob +
    y * u ^ g / prob ^ 2 - (1 - y) * g * (g - 1) * prob ^ (g - 2) * Real.log u +
    2 * (1 - y) * g * prob ^ (g - 1) / u + (1 - y) * prob ^ g / u ^ 2

def focalLoss (y f : ℝ) (p : Params) : ℝ :=
  focalLossOf y (focalProb f) (1 - focalProb f) (p "gamma")

def focalGrad (y f : ℝ) (p : Params) : ℝ :=
  focalDlDp y (focalProb f) (1 - focalProb f) (p "gamma") * focalProb f * (1 - focalProb f)

def focalHess (y f : ℝ) (p : Params) : ℝ :=
  let s := focalProb f * (1 - focalProb f)
  focalD2lDp2 y (focalProb f) (1 - focalProb f) (p "gamma") * s ^ 2 +
    focalDlDp y (focalProb f) (1 - focalProb f) (p "gamma") * s * (1 - 2 * focalProb f)

/-! ## The catalogue -/

/-- One entry: its arithmetic, and its kinks in `f`. -/
structure Template where
  loss : ℝ → ℝ → Params → ℝ
  grad : ℝ → ℝ → Params → ℝ
  hess : ℝ → ℝ → Params → ℝ
  gauss_newton : Option (ℝ → ℝ → Params → ℝ) := none
  f_boundaries : Option (ℝ → Params → List (WithBot ℝ)) := none

def templates : ObjectiveTemplate → Template
  | .poisson => { loss := poissonLoss, grad := poissonGrad, hess := poissonHess }
  | .gamma => { loss := gammaLoss, grad := gammaGrad, hess := gammaHess }
  | .tweedie => { loss := tweedieLoss, grad := tweedieGrad, hess := tweedieHess }
  | .cappedGamma => { loss := cappedGammaLoss, grad := cappedGammaGrad, hess := cappedGammaHess }
  | .splicedSeverity => { loss := splicedLoss, grad := splicedGrad, hess := splicedHess }
  | .asymmetricSquared => {
      loss := asymSqLoss
      grad := asymSqGrad
      hess := asymSqHess
      gauss_newton := some asymSqGn
      f_boundaries := some logYBoundary }
  | .asymmetricPoisson => {
      loss := asymPoisLoss
      grad := asymPoisGrad
      hess := asymPoisHess
      f_boundaries := some logYBoundary }
  | .huber => {
      loss := huberLoss
      grad := huberGrad
      hess := huberHess
      gauss_newton := some huberGn
      f_boundaries := some huberBoundaries }
  | .pseudoHuber => {
      loss := pseudoHuberLoss
      grad := pseudoHuberGrad
      hess := pseudoHuberHess
      gauss_newton := some pseudoHuberGn }
  | .quantile => {
      loss := quantileLoss
      grad := quantileGrad
      hess := quantileHess
      f_boundaries := some logYBoundary }
  | .zeroInflatedPoisson => { loss := zipLoss, grad := zipGrad, hess := zipHess }
  | .focalBinomial => { loss := focalLoss, grad := focalGrad, hess := focalHess }

namespace TemplateObjective

variable (o : TemplateObjective)

def tpl : Template := templates o.template

def resolved : Params := resolveTemplateParams o.template o.params

def loss (y f w : ℝ) : ℝ := w * o.tpl.loss y f o.resolved

def grad (y f w : ℝ) : ℝ := w * o.tpl.grad y f o.resolved

def hess (y f w : ℝ) : ℝ := w * o.tpl.hess y f o.resolved

/-- The hessian the booster is given; `none` where the strategy is refused at compilation. -/
def stabilise (y f w : ℝ) : Option ℝ :=
  match o.hessian_strategy with
  | .gaussNewton => o.tpl.gauss_newton.map fun gn => max (w * gn y f o.resolved) o.hessian_min
  | .abs => some (max |o.hess y f w| o.hessian_min)
  | .clipToMin => some (max (o.hess y f w) o.hessian_min)

end TemplateObjective

end

end GiPricing.Modelling
