import GiPricing.Expressions.Grammar
import GiPricing.Expressions.Kernel
import Mathlib.Data.Rat.Defs
import Mathlib.Tactic

/-! # Branches and divisors

What a compiled objective may divide by, and the conditions it branches on, are found in its texts. A
power of a negative constant divides too, in whatever spelling the constant stands.
-/

namespace GiPricing.Expressions

open Failure GiPricing.Graph

/-! ## What is found -/

structure BranchCondition (V B : Type) where
  text : String
  test : V → V → V → Except KernelError B
  gap : Kernel V

structure Denominator (V : Type) where
  text : String
  value : Kernel V

/-- A number of a literal below zero; what the parser writes for a literal never is. -/
def Constant.isNegative : Constant → Bool
  | .float bits => 0x8000000000000000 < bits ∧ bits ≤ 0xFFF0000000000000
  | _ => false

def Expr.IsConstant : Expr → Bool
  | .constant _ => true
  | _ => false

def isNegativeConstant : Expr → Bool
  | .unaryOp .uSub operand => operand.IsConstant
  | .constant c => c.isNegative
  | _ => false

def divisorOf : Expr → Option Expr
  | .binOp _ .div right => if right.IsConstant then none else some right
  | .binOp left .pow right => if isNegativeConstant right then some left else none
  | _ => none

def conditionOf : Expr → Option Expr
  | .call func (test :: _) _ => if func.IsName "where" ∧ test.IsCompare then some test else none
  | _ => none

def firstOfText (unparse : Expr → String) (found : List Expr) : List Expr :=
  found.foldl (fun kept e => if unparse e ∈ kept.map unparse then kept else kept ++ [e]) []

section Found

variable {V B : Type} (np : NumPy V B) (parameters : List (String × V)) (unparse : Expr → String)

/-- The test of a condition and the gap between its sides. -/
def branchCondition (test : Expr) : BranchCondition V B where
  text := unparse test
  test y f w := np.evaluateTest (kernelValues parameters y f w) test
  gap y f w := match test with
    | .compare left _ right _ _ => do
      let lhs ← kernel np parameters left y f w
      let rhs ← kernel np parameters right y f w
      return np.subtract lhs rhs
    | _ => .error (.notCompiled "Compare")

def denominator (divisor : Expr) : Denominator V where
  text := unparse divisor
  value := kernel np parameters divisor

def walked (bodies : List Expr) : List Expr := bodies.flatMap Expr.tree.walk

/-- `_found_branches_and_divisors` -/
def foundBranchesAndDivisors (bodies : List Expr) :
    List (BranchCondition V B) × List (Denominator V) :=
  ((firstOfText unparse ((walked bodies).filterMap conditionOf)).map
      (branchCondition np parameters unparse),
    (firstOfText unparse ((walked bodies).filterMap divisorOf)).map
      (denominator np parameters unparse))

end Found

/-! ## The first of each text -/

section Firsts

variable {unparse : Expr → String} {found kept : List Expr} {e : Expr}

theorem mem_foldl_text (h : e ∈ found.foldl
    (fun kept e => if unparse e ∈ kept.map unparse then kept else kept ++ [e]) kept) :
    e ∈ kept ∨ e ∈ found := by
  induction found generalizing kept with
  | nil => exact Or.inl h
  | cons x found ih =>
    rw [List.foldl_cons] at h
    rcases ih h with hkept | hfound
    · split_ifs at hkept with hseen
      · exact Or.inl hkept
      · rcases List.mem_append.mp hkept with hkept | hx
        · exact Or.inl hkept
        · exact Or.inr (List.mem_singleton.mp hx ▸ List.mem_cons_self)
    · exact Or.inr (List.mem_cons_of_mem _ hfound)

theorem text_mem_foldl (h : unparse e ∈ kept.map unparse ∨ e ∈ found) :
    unparse e ∈ (found.foldl
      (fun kept e => if unparse e ∈ kept.map unparse then kept else kept ++ [e]) kept).map
        unparse := by
  induction found generalizing kept with
  | nil => exact h.resolve_right List.not_mem_nil
  | cons x found ih =>
    rw [List.foldl_cons]
    apply ih
    by_cases hseen : unparse x ∈ kept.map unparse
    · rw [if_pos hseen]
      rcases h with h | h
      · exact Or.inl h
      · rcases List.mem_cons.mp h with rfl | h
        · exact Or.inl hseen
        · exact Or.inr h
    · rw [if_neg hseen, List.map_append, List.mem_append]
      rcases h with h | h
      · exact Or.inl (Or.inl h)
      · rcases List.mem_cons.mp h with rfl | h
        · exact Or.inl (Or.inr (List.mem_singleton.mpr rfl))
        · exact Or.inr h

theorem mem_of_firstOfText (h : e ∈ firstOfText unparse found) : e ∈ found :=
  (mem_foldl_text h).resolve_left List.not_mem_nil

theorem exists_firstOfText (h : e ∈ found) :
    ∃ x ∈ firstOfText unparse found, unparse x = unparse e := by
  have htext : unparse e ∈ (firstOfText unparse found).map unparse :=
    text_mem_foldl (Or.inr h)
  exact List.mem_map.mp htext

theorem mem_firstOfText (hunparse : ∀ x ∈ found, ∀ x' ∈ found, unparse x = unparse x' → x = x')
    (h : e ∈ found) : e ∈ firstOfText unparse found := by
  obtain ⟨x, hx, htext⟩ : ∃ x ∈ firstOfText unparse found, unparse x = unparse e :=
    exists_firstOfText h
  obtain rfl := hunparse x (mem_of_firstOfText hx) e h htext
  exact hx

end Firsts

/-! ## The texts of an objective -/

theorem mem_walk {body e : Expr} : e ∈ Expr.tree.walk body ↔ Expr.tree.Below body e := by
  rw [FiniteTree.walk, FiniteTree.mem_walkFrom (by simp [FiniteTree.weights])]
  simp

theorem mem_walked {bodies : List Expr} {e : Expr} :
    e ∈ walked bodies ↔ ∃ body ∈ bodies, Expr.tree.Below body e := by
  simp only [walked, List.mem_flatMap, mem_walk]

section Accepted

variable {profile : GrammarProfile} {bound : String → Prop} {e c : Expr}

/-- A tree that the checks pass where it stands. -/
def Stands (profile : GrammarProfile) (bound : String → Prop) (e : Expr) : Prop :=
  Passes profile bound (.expr e) ∧ ∃ whereCondition,
    checkStructure profile e whereCondition = .ok ⟨⟩

/-- The operands of a tree that stands in a strict profile stand, but for a call's own name. -/
theorem Stands.child (hstrict : profile.strict = true) (h : Stands profile bound e)
    (hc : c ∈ e.children) : (∃ id, c = .name id) ∨ Stands profile bound c := by
  obtain ⟨hpasses, whereCondition, hstructure⟩ := h
  have hlenient : ¬ profile.strict = false := by simp [hstrict]
  cases e with
  | constant value => cases hc
  | name id => cases hc
  | other kind => cases hc
  | unaryOp op operand =>
    obtain rfl := List.mem_singleton.mp hc
    rw [checkStructure] at hstructure
    exact Or.inr ⟨(passes_unaryOp.mp hpasses).2, false, hstructure⟩
  | binOp l op r =>
    obtain ⟨-, hl, hr⟩ := passes_binOp.mp hpasses
    rw [checkStructure] at hstructure
    obtain ⟨hsl, hsr⟩ := then_eq_ok.mp hstructure
    simp only [Expr.children, List.mem_cons, List.not_mem_nil, or_false] at hc
    rcases hc with rfl | rfl
    · exact Or.inr ⟨hl, false, hsl⟩
    · exact Or.inr ⟨hr, false, hsr⟩
  | boolOp op first others => exact absurd (passes_boolOp.mp hpasses).1 hlenient
  | ifExp test body orelse => exact absurd (passes_ifExp.mp hpasses).1 hlenient
  | compare l op r ops chained =>
    obtain ⟨rfl, -, hsl, hsr⟩ := checkStructure_compare.mp hstructure
    obtain ⟨-, hl, hr⟩ := passes_compare.mp hpasses
    simp only [Expr.children, List.mem_cons, List.not_mem_nil, or_false] at hc
    rcases hc with rfl | rfl
    · exact Or.inr ⟨hl, false, hsl⟩
    · exact Or.inr ⟨hr, false, hsr⟩
  | call func args keywords =>
    obtain ⟨⟨id, rfl, hid, rfl, harity⟩, hargs⟩ := passes_call.mp hpasses
    simp only [Expr.children, List.append_nil, List.mem_cons] at hc
    rcases hc with rfl | hc
    · exact Or.inl ⟨id, rfl⟩
    refine Or.inr ⟨hargs c hc, ?_⟩
    by_cases hwhere : id = "where"
    · subst hwhere
      obtain ⟨test, a, b, rfl⟩ := List.length_eq_three.mp (harity 3 rfl)
      obtain ⟨-, hst, hsa, hsb⟩ := checkStructure_where.mp hstructure
      simp only [List.mem_cons, List.not_mem_nil, or_false] at hc
      rcases hc with rfl | rfl | rfl
      · exact ⟨true, hst⟩
      · exact ⟨false, hsa⟩
      · exact ⟨false, hsb⟩
    · exact ⟨false, (checkStructure_call hwhere).mp hstructure c hc⟩

theorem Stands.below (hstrict : profile.strict = true) (h : Stands profile bound e)
    (hbelow : Expr.tree.Below e c) : (∃ id, c = .name id) ∨ Stands profile bound c := by
  induction hbelow with
  | refl => exact Or.inr h
  | child hchild hbelow ih =>
    rcases h.child hstrict hchild with ⟨id, rfl⟩ | hstands
    · cases hbelow with
      | refl => exact Or.inl ⟨id, rfl⟩
      | child hnone _ => cases hnone
    · exact ih hstands

/-- The conditional of an accepted text tests a comparison. -/
theorem Stands.condition (hstrict : profile.strict = true) (h : Stands profile bound e)
    {test : Expr} {others keywords : List Expr}
    (hcall : Expr.tree.Below e (.call (.name "where") (test :: others) keywords)) :
    test.IsCompare := by
  rcases h.below hstrict hcall with ⟨id, hname⟩ | ⟨hpasses, whereCondition, hstructure⟩
  · cases hname
  · obtain ⟨⟨id, hid, -, rfl, harity⟩, -⟩ := passes_call.mp hpasses
    cases hid
    obtain ⟨c, a, b, heq⟩ := List.length_eq_three.mp (harity 3 rfl)
    rw [heq] at hstructure
    cases heq
    exact (checkStructure_where.mp hstructure).1

end Accepted

/-! ## Compiling an objective -/

inductive HessianStrategy | clipToMin | abs | gaussNewton
  deriving DecidableEq

inductive ObjectiveError
  | hessianStrategyUnsupported
  | parse (error : ParseError)

structure ExpressionKernels (V B : Type) where
  loss : Kernel V
  grad : Kernel V
  hess : Kernel V
  conditions : List (BranchCondition V B)
  denominators : List (Denominator V)

def derivedLimits : ExpressionLimits := ⟨18200, 80⟩

section Compile

variable {V B : Type} (np : NumPy V B) (parameters : List (String × V))
  (astParse : String → Option Expr) (unparse : Expr → String)

/-- `_parse` -/
def parseObjective (limits : ExpressionLimits) (text : String) : Except ObjectiveError Expr :=
  (parseExpression .objective astParse text (some (["y", "f", "w"] ++ parameters.map Prod.fst))
    limits).mapError .parse

/-- `compile_expression_objective`, of the texts that are given for the derivatives. -/
def compileExpressionObjective (strategy : HessianStrategy) (loss gradient hessian : String) :
    Except ObjectiveError (ExpressionKernels V B) := do
  ensure (strategy ≠ .gaussNewton) .hessianStrategyUnsupported
  let l ← parseObjective parameters astParse defaultLimits loss
  let g ← parseObjective parameters astParse derivedLimits gradient
  let h ← parseObjective parameters astParse derivedLimits hessian
  let (conditions, denominators) := foundBranchesAndDivisors np parameters unparse [l, g, h]
  return { loss := kernel np parameters l
           grad := kernel np parameters g
           hess := kernel np parameters h
           conditions := conditions
           denominators := denominators }

end Compile

/-! ## What there is to find -/

/-- The number that the bits of a double write. -/
def doubleValue (bits : UInt64) : Option ℚ :=
  let exponent : ℕ := bits.toNat / 2 ^ 52 % 2 ^ 11
  let fraction : ℕ := bits.toNat % 2 ^ 52
  let sign : ℚ := if bits.toNat < 2 ^ 63 then 1 else -1
  if exponent = 2047 then none
  else if exponent = 0 then some (sign * (fraction : ℚ) * 2 ^ (-1074 : ℤ))
  else some (sign * ((2 ^ 52 + fraction : ℕ) : ℚ) * 2 ^ ((exponent : ℤ) - 1075))

/-- The number that an expression of literals writes. -/
def constantValue : Expr → Option ℚ
  | .constant (.int n) => some n
  | .constant (.float bits) => doubleValue bits
  | .unaryOp .uSub e => (constantValue e).map Neg.neg
  | .binOp left op right => do
    let x ← constantValue left
    let y ← constantValue right
    match op with
    | .add => some (x + y)
    | .sub => some (x - y)
    | .mult => some (x * y)
    | .div => if y = 0 then none else some (x / y)
    | .pow => if y.den = 1 ∧ (x ≠ 0 ∨ 0 ≤ y) then some (x ^ y.num) else none
    | _ => none
  | _ => none

/-- An integer, a rational or a float below zero, in any spelling. -/
def NegativeConstant (e : Expr) : Prop := ∃ q, constantValue e = some q ∧ q < 0

/-- An expression divides in some text: it is the right operand of a division, where it is no bare
constant, or the base of a power of a negative constant. -/
inductive Divides (bodies : List Expr) (d : Expr) : Prop
  | quotient {body left : Expr} (hbody : body ∈ bodies)
    (h : Expr.tree.Below body (.binOp left .div d)) (hconstant : d.IsConstant = false) :
    Divides bodies d
  | power {body exponent : Expr} (hbody : body ∈ bodies)
    (h : Expr.tree.Below body (.binOp d .pow exponent)) (hnegative : NegativeConstant exponent) :
    Divides bodies d

/-- A conditional of some text branches on a test. -/
def Branches (bodies : List Expr) (test : Expr) : Prop := ∃ body ∈ bodies, ∃ others keywords,
  Expr.tree.Below body (.call (.name "where") (test :: others) keywords)

section Laws

variable {V B : Type} {np : NumPy V B} {parameters : List (String × V)}
  {astParse : String → Option Expr} {unparse : Expr → String} {bodies : List Expr} {d : Expr}
  {kernels : ExpressionKernels V B}

variable (np parameters unparse) in
/-- All that divides and all that is branched on is found, with the kernels of the very expression,
and what is merged is one expression. -/
structure SingularitiesFound (bodies : List Expr) (kernels : ExpressionKernels V B) : Prop where
  divisors : ∀ d, Divides bodies d → denominator np parameters unparse d ∈ kernels.denominators
  conditions : ∀ test, Branches bodies test →
    branchCondition np parameters unparse test ∈ kernels.conditions
  divisors_merged : ∀ d ∈ (walked bodies).filterMap divisorOf,
    ∀ d' ∈ (walked bodies).filterMap divisorOf, unparse d = unparse d' → d = d'
  conditions_merged : ∀ test ∈ (walked bodies).filterMap conditionOf,
    ∀ test' ∈ (walked bodies).filterMap conditionOf, unparse test = unparse test' → test = test'

/-- Some text has the expression where the search takes it for a divisor. -/
def Recognised (bodies : List Expr) (d : Expr) : Prop :=
  ∃ body ∈ bodies, ∃ e, Expr.tree.Below body e ∧ divisorOf e = some d

theorem recognised_iff : Recognised bodies d ↔ d ∈ (walked bodies).filterMap divisorOf := by
  simp only [Recognised, List.mem_filterMap, mem_walked]
  constructor
  · rintro ⟨body, hbody, e, hbelow, he⟩
    exact ⟨e, ⟨body, hbody, hbelow⟩, he⟩
  · rintro ⟨e, ⟨body, hbody, hbelow⟩, he⟩
    exact ⟨body, hbody, e, hbelow, he⟩

theorem conditionOf_eq_some {e test : Expr} (h : conditionOf e = some test) :
    test ∈ e.children := by
  unfold conditionOf at h
  split at h
  · split_ifs at h
    cases h
    simp [Expr.children]
  · cases h

theorem divisorOf_eq_some {e : Expr} (h : divisorOf e = some d) : d ∈ e.children := by
  unfold divisorOf at h
  split at h
  · split_ifs at h
    cases h
    simp [Expr.children]
  · split_ifs at h
    cases h
    simp [Expr.children]
  · cases h

theorem below_of_found {find : Expr → Option Expr}
    (hfind : ∀ e x, find e = some x → x ∈ e.children) {x : Expr}
    (h : x ∈ (walked bodies).filterMap find) : ∃ body ∈ bodies, Expr.tree.Below body x := by
  obtain ⟨e, he, hx⟩ := List.mem_filterMap.mp h
  obtain ⟨body, hbody, hbelow⟩ := mem_walked.mp he
  exact ⟨body, hbody, hbelow.trans (.child (hfind e x hx) (.refl x))⟩

theorem mem_denominators : denominator np parameters unparse d ∈
      (foundBranchesAndDivisors np parameters unparse bodies).2 →
    ∃ x ∈ (walked bodies).filterMap divisorOf, unparse x = unparse d := by
  intro h
  obtain ⟨x, hx, heq⟩ := List.mem_map.mp h
  exact ⟨x, mem_of_firstOfText hx, congrArg Denominator.text heq⟩

theorem unparse_injective (hunparse : ∀ text body, astParse text = some body →
      ∀ e, Expr.tree.Below body e → astParse (unparse e) = some e)
    (hbodies : ∀ body ∈ bodies, ∃ text, astParse text = some body) {e e' : Expr}
    (he : ∃ body ∈ bodies, Expr.tree.Below body e) (he' : ∃ body ∈ bodies, Expr.tree.Below body e')
    (htext : unparse e = unparse e') : e = e' := by
  obtain ⟨body, hbody, hbelow⟩ := he
  obtain ⟨body', hbody', hbelow'⟩ := he'
  obtain ⟨text, hparse⟩ := hbodies body hbody
  obtain ⟨text', hparse'⟩ := hbodies body' hbody'
  have h := hunparse text body hparse e hbelow
  rw [htext, hunparse text' body' hparse' e' hbelow'] at h
  exact (Option.some.inj h).symm

theorem below_of_divides (h : Divides bodies d) : ∃ body ∈ bodies, Expr.tree.Below body d := by
  cases h with
  | quotient hbody hbelow =>
    exact ⟨_, hbody, hbelow.trans (.child (List.mem_cons_of_mem _ List.mem_cons_self) (.refl d))⟩
  | power hbody hbelow => exact ⟨_, hbody, hbelow.trans (.child List.mem_cons_self (.refl d))⟩

theorem recognised_of_divides
    (hpowers : ∀ body ∈ bodies, ∀ d exponent, Expr.tree.Below body (.binOp d .pow exponent) →
      NegativeConstant exponent → isNegativeConstant exponent = true ∨ Recognised bodies d)
    (h : Divides bodies d) : Recognised bodies d := by
  cases h with
  | quotient hbody hbelow hconstant =>
    refine ⟨_, hbody, _, hbelow, ?_⟩
    simp [divisorOf, hconstant]
  | power hbody hbelow hnegative =>
    refine (hpowers _ hbody _ _ hbelow hnegative).elim (fun hspelled => ?_) id
    exact ⟨_, hbody, _, hbelow, if_pos hspelled⟩

theorem found_iff (hunparse : ∀ text body, astParse text = some body →
      ∀ e, Expr.tree.Below body e → astParse (unparse e) = some e)
    (hbodies : ∀ body ∈ bodies, ∃ text, astParse text = some body)
    (hstands : ∀ body ∈ bodies, ∃ bound, Stands .objective bound body)
    (hconditions : kernels.conditions = (foundBranchesAndDivisors np parameters unparse bodies).1)
    (hdenominators : kernels.denominators =
      (foundBranchesAndDivisors np parameters unparse bodies).2) :
    SingularitiesFound np parameters unparse bodies kernels ↔
      ∀ body ∈ bodies, ∀ d exponent, Expr.tree.Below body (.binOp d .pow exponent) →
        NegativeConstant exponent → isNegativeConstant exponent = true ∨ Recognised bodies d := by
  have hdivisors : ∀ d ∈ (walked bodies).filterMap divisorOf,
      ∀ d' ∈ (walked bodies).filterMap divisorOf, unparse d = unparse d' → d = d' :=
    fun d hd d' hd' => unparse_injective hunparse hbodies
      (below_of_found (fun _ _ => divisorOf_eq_some) hd)
      (below_of_found (fun _ _ => divisorOf_eq_some) hd')
  have htests : ∀ test ∈ (walked bodies).filterMap conditionOf,
      ∀ test' ∈ (walked bodies).filterMap conditionOf, unparse test = unparse test' → test = test' :=
    fun test htest test' htest' => unparse_injective hunparse hbodies
      (below_of_found (fun _ _ => conditionOf_eq_some) htest)
      (below_of_found (fun _ _ => conditionOf_eq_some) htest')
  constructor
  · intro h body hbody d exponent hbelow hnegative
    have hdivides : Divides bodies d := .power hbody hbelow hnegative
    have hmem := h.divisors d hdivides
    rw [hdenominators] at hmem
    obtain ⟨x, hx, htext⟩ := mem_denominators hmem
    obtain rfl := unparse_injective hunparse hbodies
      (below_of_found (fun _ _ => divisorOf_eq_some) hx) (below_of_divides hdivides) htext
    exact Or.inr (recognised_iff.mpr hx)
  · intro hpowers
    refine ⟨fun d hd => ?_, fun test htest => ?_, hdivisors, htests⟩
    · rw [hdenominators]
      exact List.mem_map_of_mem (mem_firstOfText hdivisors
        (recognised_iff.mp (recognised_of_divides hpowers hd)))
    · rw [hconditions]
      obtain ⟨body, hbody, others, keywords, hbelow⟩ := htest
      obtain ⟨bound, hbound⟩ := hstands body hbody
      have hcompare := hbound.condition rfl hbelow
      refine List.mem_map_of_mem (mem_firstOfText htests (List.mem_filterMap.mpr
        ⟨.call (.name "where") (test :: others) keywords, ?_, if_pos ⟨rfl, hcompare⟩⟩))
      exact mem_walked.mpr ⟨body, hbody, hbelow⟩

theorem parseObjective_eq_ok {limits : ExpressionLimits} {text : String} {body : Expr}
    (h : parseObjective parameters astParse limits text = .ok body) :
    astParse text = some body ∧ ∃ bound, Stands .objective bound body := by
  obtain ⟨-, htext, -, hpasses, hstructure⟩ := parseExpression_eq_ok.mp (mapError_eq_ok.mp h)
  exact ⟨htext, _, hpasses, false, hstructure⟩

/-- Every singularity of a compiled objective is found just where each base of a power of a negative
constant, but for a minus sign before a literal, is found in another place. -/
theorem singularities_found_iff {strategy : HessianStrategy} {loss gradient hessian : String}
    {l g h : Expr} (hunparse : ∀ text body, astParse text = some body →
      ∀ e, Expr.tree.Below body e → astParse (unparse e) = some e)
    (hloss : parseObjective parameters astParse defaultLimits loss = .ok l)
    (hgradient : parseObjective parameters astParse derivedLimits gradient = .ok g)
    (hhessian : parseObjective parameters astParse derivedLimits hessian = .ok h)
    (hcompile : compileExpressionObjective np parameters astParse unparse strategy loss gradient
      hessian = .ok kernels) :
    SingularitiesFound np parameters unparse [l, g, h] kernels ↔
      ∀ body ∈ [l, g, h], ∀ d exponent, Expr.tree.Below body (.binOp d .pow exponent) →
        NegativeConstant exponent → isNegativeConstant exponent = true ∨
          Recognised [l, g, h] d := by
  have hl := parseObjective_eq_ok hloss
  have hg := parseObjective_eq_ok hgradient
  have hh := parseObjective_eq_ok hhessian
  obtain ⟨-, hcompile⟩ := ensure_bind_eq_ok.mp hcompile
  rw [hloss, hgradient, hhessian] at hcompile
  cases hcompile
  refine found_iff hunparse ?_ ?_ rfl rfl
  · simp only [List.mem_cons, List.not_mem_nil, or_false, forall_eq_or_imp, forall_eq]
    exact ⟨⟨loss, hl.1⟩, ⟨gradient, hg.1⟩, ⟨hessian, hh.1⟩⟩
  · simp only [List.mem_cons, List.not_mem_nil, or_false, forall_eq_or_imp, forall_eq]
    exact ⟨hl.2, hg.2, hh.2⟩

end Laws

/-! ## The derivative of a square root -/

section Example

/-- Exact numbers, on the functions that have them. -/
def exactNumPy : NumPy ℚ Bool where
  float64
    | .int n => some n
    | .float bits => doubleValue bits
    | _ => none
  negative x := -x
  add x y := x + y
  subtract x y := x - y
  multiply x y := x * y
  divide x y := x / y
  power x y := if y.den = 1 then x ^ y.num else 0
  less x y := x < y
  lessEqual x y := x ≤ y
  greater x y := y < x
  greaterEqual x y := y ≤ x
  equal x y := x = y
  notEqual x y := x ≠ y
  choose c x y := if c then x else y
  log _ := 0
  exp _ := 0
  sqrt _ := 0
  abs x := |x|
  log1p _ := 0
  expm1 _ := 0
  minimum x y := min x y
  maximum x y := max x y

/-- `f ** -1` -/
def inverse : Expr := .binOp (.name "f") .pow (.unaryOp .uSub (.constant (.int 1)))

def negativeOver (p q : ℕ) : Expr :=
  .binOp (.unaryOp .uSub (.constant (.int p))) .div (.constant (.int q))

/-- `((1 / 2)) * ((f) ** ((-1 / 2)))` -/
def sqrtGradient : Expr :=
  .binOp (.binOp (.constant (.int 1)) .div (.constant (.int 2))) .mult
    (.binOp (.name "f") .pow (negativeOver 1 2))

/-- `((-1 / 4)) * ((f) ** ((-3 / 2)))` -/
def sqrtHessian : Expr :=
  .binOp (negativeOver 1 4) .mult (.binOp (.name "f") .pow (negativeOver 3 2))

def readInverse (text : String) : Option Expr :=
  [("f", Expr.name "f"), ("1", .constant (.int 1)), ("-1", .unaryOp .uSub (.constant (.int 1))),
    ("f ** -1", inverse)].lookup text

/-- The texts of a square root and of its derivatives. -/
def readSqrt (text : String) : Option Expr :=
  [("sqrt(f)", Expr.call (.name "sqrt") [.name "f"] []),
    ("((1 / 2)) * ((f) ** ((-1 / 2)))", sqrtGradient),
    ("((-1 / 4)) * ((f) ** ((-3 / 2)))", sqrtHessian)].lookup text

def writeInverse : Expr → String
  | .constant (.int n) => toString n
  | .name id => id
  | .unaryOp .uSub e => "-" ++ writeInverse e
  | .binOp l .pow r => writeInverse l ++ " ** " ++ writeInverse r
  | _ => ""

theorem walk_inverse : Expr.tree.walk inverse = [inverse, .name "f",
    .unaryOp .uSub (.constant (.int 1)), .constant (.int 1)] := by rfl

theorem readInverse_eq_some {text : String} {body : Expr} (h : readInverse text = some body) :
    Expr.tree.Below inverse body := by
  rw [← mem_walk]
  simp only [readInverse, List.lookup_cons, List.lookup_nil] at h
  rw [walk_inverse]
  split at h
  · cases h
    simp
  split at h
  · cases h
    simp
  split at h
  · cases h
    simp
  split at h
  · cases h
    simp
  · cases h

theorem readInverse_writeInverse {text : String} {body : Expr} (h : readInverse text = some body) :
    ∀ e, Expr.tree.Below body e → readInverse (writeInverse e) = some e := by
  intro e he
  have hmem := mem_walk.mpr ((readInverse_eq_some h).trans he)
  rw [walk_inverse] at hmem
  simp only [List.mem_cons, List.not_mem_nil, or_false] at hmem
  rcases hmem with rfl | rfl | rfl | rfl <;> rfl

theorem inverse_found : ∃ kernels, compileExpressionObjective exactNumPy [] readInverse writeInverse
      .clipToMin "f" "f ** -1" "1" = .ok kernels ∧
    SingularitiesFound exactNumPy [] writeInverse [.name "f", inverse, .constant (.int 1)]
      kernels := by
  have hloss : parseObjective ([] : List (String × ℚ)) readInverse defaultLimits "f" =
      .ok (.name "f") := by rfl
  have hgradient : parseObjective ([] : List (String × ℚ)) readInverse derivedLimits "f ** -1" =
      .ok inverse := by rfl
  have hhessian : parseObjective ([] : List (String × ℚ)) readInverse derivedLimits "1" =
      .ok (.constant (.int 1)) := by rfl
  refine ⟨_, rfl, (singularities_found_iff (fun _ _ h => readInverse_writeInverse h) hloss hgradient
    hhessian (show compileExpressionObjective exactNumPy [] readInverse writeInverse .clipToMin "f"
      "f ** -1" "1" = .ok _ from rfl)).mpr ?_⟩
  intro body hbody d exponent hbelow _
  have hinverse : Expr.tree.Below inverse body := by
    simp only [List.mem_cons, List.not_mem_nil, or_false] at hbody
    rcases hbody with rfl | rfl | rfl
    · exact .child List.mem_cons_self (.refl _)
    · exact .refl _
    · exact .child (List.mem_cons_of_mem _ List.mem_cons_self)
        (.child List.mem_cons_self (.refl _))
  have hmem := mem_walk.mpr (hinverse.trans hbelow)
  rw [walk_inverse] at hmem
  simp only [inverse, List.mem_cons, List.not_mem_nil, or_false, Expr.binOp.injEq, reduceCtorEq] at hmem
  obtain ⟨-, -, rfl⟩ := hmem
  exact Or.inl rfl

/-- The zero of a square root is no divisor of its derivatives. -/
theorem sqrt_missed : ∃ kernels, compileExpressionObjective exactNumPy [] readSqrt writeInverse
      .clipToMin "sqrt(f)" "((1 / 2)) * ((f) ** ((-1 / 2)))" "((-1 / 4)) * ((f) ** ((-3 / 2)))" =
        .ok kernels ∧
    ¬ SingularitiesFound exactNumPy [] writeInverse
      [.call (.name "sqrt") [.name "f"] [], sqrtGradient, sqrtHessian] kernels := by
  refine ⟨_, rfl, fun h => ?_⟩
  have hbelow : Expr.tree.Below sqrtGradient (.binOp (.name "f") .pow (negativeOver 1 2)) :=
    .child (List.mem_cons_of_mem _ List.mem_cons_self) (.refl _)
  have hnegative : NegativeConstant (negativeOver 1 2) := ⟨-1 / 2, by rfl, by norm_num⟩
  have hmem := h.divisors (.name "f") (.power (by simp) hbelow hnegative)
  cases hmem

end Example

end GiPricing.Expressions
