import Mathlib.Algebra.Order.Field.Basic
import Mathlib.Tactic

/-! # Guarded divisions

Expressions over an ordered field are evaluated lazily at the conditional and at the connectives.
A division is guarded where the conditions that the evaluation has passed on its way to it rule out
that the divisor is zero. An expression whose divisions are all guarded never divides by zero.
-/

namespace GiPricing.Lazy

inductive Arithmetic | add | sub | mul | div
  deriving DecidableEq, Repr

inductive Comparison | eq | ne | lt | le | gt | ge
  deriving DecidableEq, Repr

inductive Connective | and | or | coalesce
  deriving DecidableEq, Repr

inductive Unary | plus | minus | not
  deriving DecidableEq, Repr

/-- What an expression evaluates to: numbers in `K` and texts in `τ`. -/
inductive Value (K τ : Type)
  | number (x : K)
  | truth (b : Bool)
  | text (w : τ)
  | null
  deriving DecidableEq, Repr

/-- Expressions with names in `ν` and functions in `φ`. -/
inductive Expr (K τ ν φ : Type)
  | constant (value : Value K τ)
  | name (n : ν)
  | unary (op : Unary) (e : Expr K τ ν φ)
  | arithmetic (op : Arithmetic) (left right : Expr K τ ν φ)
  | comparison (op : Comparison) (left right : Expr K τ ν φ)
  | connective (op : Connective) (left right : Expr K τ ν φ)
  | cond (test yes no : Expr K τ ν φ)
  | call (f : φ) (args : List (Expr K τ ν φ))

/-- Evaluation ends at a division by zero, or where an operation refuses its operands. -/
inductive Failure | divisionByZero | refused
  deriving DecidableEq, Repr

/-- What the evaluator does with the operands that the arithmetic of numbers leaves open. -/
structure Engine (K τ φ : Type) where
  unary : Unary → Value K τ → Option (Value K τ)
  arithmetic : Arithmetic → Value K τ → Value K τ → Option (Value K τ)
  comparison : Comparison → Value K τ → Value K τ → Option (Value K τ)
  call : φ → List (Value K τ) → Option (Value K τ)

section Outcomes

variable {K τ : Type}

def given : Option (Value K τ) → Except Failure (Value K τ)
  | some v => .ok v
  | none => .error .refused

def test : Value K τ → Except Failure Bool
  | .truth b => .ok b
  | _ => .error .refused

theorem given_safe (o : Option (Value K τ)) : given o ≠ .error .divisionByZero := by
  cases o <;> simp [given]

theorem test_eq_ok {v : Value K τ} {b : Bool} : test v = .ok b ↔ v = .truth b := by
  cases v <;> simp [test]

theorem test_safe (v : Value K τ) : test v ≠ .error .divisionByZero := by
  cases v <;> simp [test]

theorem bind_eq_ok {α β : Type} {x : Except Failure α} {f : α → Except Failure β} {v : β} :
    x >>= f = .ok v ↔ ∃ a, x = .ok a ∧ f a = .ok v := by
  cases x with
  | error e =>
    constructor
    · rintro ⟨⟩
    · rintro ⟨a, ⟨⟩, -⟩
  | ok a => exact ⟨fun h => ⟨a, rfl, h⟩, by rintro ⟨a, ⟨⟩, h⟩; exact h⟩

/-- A computation in two parts does not divide by zero where neither part does. -/
theorem bind_safe {α β : Type} {x : Except Failure α} {f : α → Except Failure β}
    (hx : x ≠ .error .divisionByZero) (hf : ∀ a, x = .ok a → f a ≠ .error .divisionByZero) :
    x >>= f ≠ .error .divisionByZero := by
  cases x with
  | error e =>
    intro h
    exact hx (congrArg Except.error (Except.error.inj h))
  | ok a => exact hf a rfl

end Outcomes

section Evaluation

variable {K τ ν φ : Type} [Field K] [LinearOrder K]

def Comparison.holds : Comparison → K → K → Bool
  | .eq, x, y => x = y
  | .ne, x, y => x ≠ y
  | .lt, x, y => x < y
  | .le, x, y => x ≤ y
  | .gt, x, y => y < x
  | .ge, x, y => y ≤ x

variable (engine : Engine K τ φ)

def unaryOf : Unary → Value K τ → Except Failure (Value K τ)
  | .plus, .number x => .ok (.number x)
  | .minus, .number x => .ok (.number (-x))
  | .not, .truth b => .ok (.truth !b)
  | .not, _ => .error .refused
  | op, v => given (engine.unary op v)

def arithmeticOf : Arithmetic → Value K τ → Value K τ → Except Failure (Value K τ)
  | .add, .number x, .number y => .ok (.number (x + y))
  | .sub, .number x, .number y => .ok (.number (x - y))
  | .mul, .number x, .number y => .ok (.number (x * y))
  | .div, .number x, .number y => if y = 0 then .error .divisionByZero else .ok (.number (x / y))
  | op, v, w => given (engine.arithmetic op v w)

def comparisonOf : Comparison → Value K τ → Value K τ → Except Failure (Value K τ)
  | op, .number x, .number y => .ok (.truth (op.holds x y))
  | op, v, w => given (engine.comparison op v w)

variable (env : ν → Value K τ)

mutual

/-- The right operand of a connective, and the branches of a conditional, are evaluated only where
the left operand or the test calls for them. -/
def eval : Expr K τ ν φ → Except Failure (Value K τ)
  | .constant v => .ok v
  | .name n => .ok (env n)
  | .unary op e => do unaryOf engine op (← eval e)
  | .arithmetic op l r => do arithmeticOf engine op (← eval l) (← eval r)
  | .comparison op l r => do comparisonOf engine op (← eval l) (← eval r)
  | .connective .and l r => do
    if ← test (← eval l) then eval r else .ok (.truth false)
  | .connective .or l r => do
    if ← test (← eval l) then .ok (.truth true) else eval r
  | .connective .coalesce l r => do
    match ← eval l with
    | .null => eval r
    | v => .ok v
  | .cond t y n => do
    if ← test (← eval t) then eval y else eval n
  | .call f args => do given (engine.call f (← evalAll args))

def evalAll : List (Expr K τ ν φ) → Except Failure (List (Value K τ))
  | [] => .ok []
  | e :: es => do
    let v ← eval e
    let vs ← evalAll es
    return v :: vs

end

/-- The expression does not evaluate to zero. -/
def NonZero (e : Expr K τ ν φ) : Prop := eval engine env e ≠ .ok (.number 0)

/-- The expression never divides by zero. -/
def Safe (e : Expr K τ ν φ) : Prop := eval engine env e ≠ .error .divisionByZero

end Evaluation

/-! ## What a condition rules out -/

section Guards

variable {K τ ν φ : Type} [Field K] [LinearOrder K]

/-- The sides of a comparison with a number, where zero would have made the comparison go the other
way. -/
def ruledOut (op : Comparison) (b : Bool) (l r : Expr K τ ν φ) : List (Expr K τ ν φ) :=
  (match r with
    | .constant (.number y) => if op.holds 0 y = b then [] else [l]
    | _ => []) ++
  match l with
    | .constant (.number x) => if op.holds x 0 = b then [] else [r]
    | _ => []

/-- The expressions that are not zero where a condition has come out as `b`. -/
def nonzeroIf : Bool → Expr K τ ν φ → List (Expr K τ ν φ)
  | b, .comparison op l r => ruledOut op b l r
  | true, .connective .and l r => nonzeroIf true l ++ nonzeroIf true r
  | false, .connective .or l r => nonzeroIf false l ++ nonzeroIf false r
  | b, .unary .not e => nonzeroIf (!b) e
  | _, _ => []

/-- What the right operand of a connective may rely on. -/
def passed : Connective → Expr K τ ν φ → List (Expr K τ ν φ)
  | .and, l => nonzeroIf true l
  | .or, l => nonzeroIf false l
  | .coalesce, _ => []

mutual

/-- Every division has a divisor that is a number other than zero, or that the conditions on the
way to the division, or else those known before, rule out to be zero. -/
def Guarded : List (Expr K τ ν φ) → Expr K τ ν φ → Prop
  | _, .constant _ => True
  | _, .name _ => True
  | known, .unary _ e => Guarded known e
  | known, .arithmetic op l r => Guarded known l ∧ Guarded known r ∧
      (op = .div → r ∈ known ∨ ∃ x, x ≠ 0 ∧ r = .constant (.number x))
  | known, .comparison _ l r => Guarded known l ∧ Guarded known r
  | known, .connective op l r => Guarded known l ∧ Guarded (passed op l ++ known) r
  | known, .cond t y n => Guarded known t ∧ Guarded (nonzeroIf true t ++ known) y ∧
      Guarded (nonzeroIf false t ++ known) n
  | known, .call _ args => GuardedAll known args

def GuardedAll : List (Expr K τ ν φ) → List (Expr K τ ν φ) → Prop
  | _, [] => True
  | known, e :: es => Guarded known e ∧ GuardedAll known es

end

variable {engine : Engine K τ φ} {env : ν → Value K τ} {e l r : Expr K τ ν φ}
  {known : List (Expr K τ ν φ)} {b : Bool}

omit [LinearOrder K] in
theorem unaryOf_safe (op : Unary) (v : Value K τ) :
    unaryOf engine op v ≠ .error .divisionByZero := by
  cases op <;> cases v <;> simp [unaryOf, given_safe]

omit [Field K] in
theorem comparisonOf_safe (op : Comparison) (v w : Value K τ) :
    comparisonOf engine op v w ≠ .error .divisionByZero := by
  cases v <;> cases w <;> simp [comparisonOf, given_safe]

theorem arithmeticOf_safe {op : Arithmetic} {v w : Value K τ}
    (h : op = .div → w ≠ .number 0) : arithmeticOf engine op v w ≠ .error .divisionByZero := by
  cases op with
  | div =>
    cases v with
    | number x =>
      cases w with
      | number y =>
        have hy : y ≠ 0 := fun hy => h rfl (congrArg Value.number hy)
        simp [arithmeticOf, hy]
      | _ => simp [arithmeticOf, given_safe]
    | _ => simp [arithmeticOf, given_safe]
  | _ => cases v <;> cases w <;> simp [arithmeticOf, given_safe]

theorem ruledOut_sound {op : Comparison}
    (h : eval engine env (.comparison op l r) = .ok (.truth b)) :
    ∀ d ∈ ruledOut op b l r, NonZero engine env d := by
  rw [eval] at h
  obtain ⟨v, hv, h⟩ := bind_eq_ok.mp h
  obtain ⟨w, hw, h⟩ := bind_eq_ok.mp h
  intro d hd hzero
  obtain hd | hd := List.mem_append.mp hd
  · split at hd
    · split_ifs at hd with hholds
      · cases hd
      · obtain rfl := List.mem_singleton.mp hd
        obtain rfl := Except.ok.inj (hv.symm.trans hzero)
        rw [eval] at hw
        obtain rfl := Except.ok.inj hw
        exact hholds (Value.truth.inj (Except.ok.inj h))
    · cases hd
  · split at hd
    · split_ifs at hd with hholds
      · cases hd
      · obtain rfl := List.mem_singleton.mp hd
        obtain rfl := Except.ok.inj (hw.symm.trans hzero)
        rw [eval] at hv
        obtain rfl := Except.ok.inj hv
        exact hholds (Value.truth.inj (Except.ok.inj h))
    · cases hd

/-- A condition that came out as it does rules out what it lists, by induction on the condition. -/
theorem nonzeroIf_sound : ∀ (b : Bool) (e : Expr K τ ν φ), eval engine env e = .ok (.truth b) →
    ∀ d ∈ nonzeroIf b e, NonZero engine env d := by
  intro b e
  fun_induction nonzeroIf b e with
  | case1 b op l r => exact ruledOut_sound
  | case2 l r ihl ihr =>
    intro h d hd
    rw [eval] at h
    obtain ⟨v, hv, h⟩ := bind_eq_ok.mp h
    obtain ⟨taken, htaken, h⟩ := bind_eq_ok.mp h
    obtain rfl := test_eq_ok.mp htaken
    cases taken with
    | false => cases h
    | true =>
      obtain hd | hd := List.mem_append.mp hd
      · exact ihl hv d hd
      · exact ihr h d hd
  | case3 l r ihl ihr =>
    intro h d hd
    rw [eval] at h
    obtain ⟨v, hv, h⟩ := bind_eq_ok.mp h
    obtain ⟨taken, htaken, h⟩ := bind_eq_ok.mp h
    obtain rfl := test_eq_ok.mp htaken
    cases taken with
    | true => cases h
    | false =>
      obtain hd | hd := List.mem_append.mp hd
      · exact ihl hv d hd
      · exact ihr h d hd
  | case4 b e ih =>
    intro h d hd
    rw [eval] at h
    obtain ⟨v, hv, h⟩ := bind_eq_ok.mp h
    cases v with
    | truth taken =>
      obtain rfl := Value.truth.inj (Except.ok.inj h)
      exact ih (by rw [hv, Bool.not_not]) d hd
    | _ => cases h
  | case5 =>
    intro _ d hd
    cases hd

theorem forall_append {facts : List (Expr K τ ν φ)} (hf : ∀ d ∈ facts, NonZero engine env d)
    (hk : ∀ d ∈ known, NonZero engine env d) : ∀ d ∈ facts ++ known, NonZero engine env d := by
  intro d hd
  obtain hd | hd := List.mem_append.mp hd
  · exact hf d hd
  · exact hk d hd

mutual

theorem Guarded.safe : ∀ {e : Expr K τ ν φ} {known : List (Expr K τ ν φ)}, Guarded known e →
    (∀ d ∈ known, NonZero engine env d) → Safe engine env e
  | .constant _, _, _, _ => by
    rw [Safe, eval]
    rintro ⟨⟩
  | .name _, _, _, _ => by
    rw [Safe, eval]
    rintro ⟨⟩
  | .unary op e, _, hg, hk => by
    rw [Guarded] at hg
    rw [Safe, eval]
    exact bind_safe (hg.safe hk) fun v _ => unaryOf_safe op v
  | .arithmetic op l r, _, hg, hk => by
    rw [Guarded] at hg
    obtain ⟨hl, hr, hdiv⟩ := hg
    rw [Safe, eval]
    refine bind_safe (hl.safe hk) fun v _ => bind_safe (hr.safe hk) fun w hw => ?_
    refine arithmeticOf_safe fun hop hzero => ?_
    rw [hzero] at hw
    obtain hknown | ⟨x, hx, rfl⟩ := hdiv hop
    · exact hk r hknown hw
    · rw [eval] at hw
      exact hx (Value.number.inj (Except.ok.inj hw))
  | .comparison op l r, _, hg, hk => by
    rw [Guarded] at hg
    rw [Safe, eval]
    exact bind_safe (hg.1.safe hk) fun v _ =>
      bind_safe (hg.2.safe hk) fun w _ => comparisonOf_safe op v w
  | .connective op l r, known, hg, hk => by
    rw [Guarded] at hg
    obtain ⟨hl, hr⟩ := hg
    have hright : (∀ d ∈ passed op l, NonZero engine env d) → Safe engine env r := by
      intro hpassed
      exact hr.safe (forall_append hpassed hk)
    cases op with
    | and =>
      rw [Safe, eval]
      refine bind_safe (hl.safe hk) fun v hv => bind_safe (test_safe v) fun b hb => ?_
      obtain rfl := test_eq_ok.mp hb
      cases b with
      | true => exact hright (nonzeroIf_sound true l hv)
      | false => rintro ⟨⟩
    | or =>
      rw [Safe, eval]
      refine bind_safe (hl.safe hk) fun v hv => bind_safe (test_safe v) fun b hb => ?_
      obtain rfl := test_eq_ok.mp hb
      cases b with
      | true => rintro ⟨⟩
      | false => exact hright (nonzeroIf_sound false l hv)
    | coalesce =>
      rw [Safe, eval]
      refine bind_safe (hl.safe hk) fun v _ => ?_
      cases v with
      | null => exact hright (by rintro d ⟨⟩)
      | _ => rintro ⟨⟩
  | .cond t y n, known, hg, hk => by
    rw [Guarded] at hg
    obtain ⟨ht, hy, hn⟩ := hg
    rw [Safe, eval]
    refine bind_safe (ht.safe hk) fun v hv => bind_safe (test_safe v) fun b hb => ?_
    obtain rfl := test_eq_ok.mp hb
    have hbranch := nonzeroIf_sound b t hv
    cases b with
    | true => exact hy.safe (forall_append hbranch hk)
    | false => exact hn.safe (forall_append hbranch hk)
  | .call f args, _, hg, hk => by
    rw [Guarded] at hg
    rw [Safe, eval]
    exact bind_safe (hg.safe hk) fun vs _ => given_safe _

theorem GuardedAll.safe : ∀ {es known : List (Expr K τ ν φ)}, GuardedAll known es →
    (∀ d ∈ known, NonZero engine env d) → evalAll engine env es ≠ .error .divisionByZero
  | [], _, _, _ => by
    rw [evalAll]
    rintro ⟨⟩
  | e :: es, _, hg, hk => by
    rw [GuardedAll] at hg
    rw [evalAll]
    refine bind_safe (hg.1.safe hk) fun v _ => bind_safe (hg.2.safe hk) fun vs _ => ?_
    rintro ⟨⟩

end

end Guards

end GiPricing.Lazy
