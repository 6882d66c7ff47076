import GiPricing.Expressions.Translate

/-! # The meaning of what is accepted

Where the operations of a library have the values that the syntax gives them, a translation of an
accepted tree has the value of the tree, and nothing but the library refuses it.
-/

namespace GiPricing.Expressions

open Failure GiPricing.Graph

variable {L E V : Type} {profile : GrammarProfile} {bound : String → Prop} {e : Expr}
  {es : List Expr} {r : Reading V} {value : E → V}

/-! ## Agreement -/

/-- The library refuses, or both succeed and the value of what is built is the value read. -/
def Agrees {α β : Type} (f : α → β) (x : Except (TranslateError L) α) (m : Option β) : Prop :=
  (∃ l, x = .error (.library l)) ∨ ∃ a, x = .ok a ∧ m = some (f a)

section

variable {α β α' β' : Type} {f : α → β} {g : α' → β'} {x : Except (TranslateError L) α}
  {m : Option β}

theorem Agrees.ok {a : α} {b : β} (h : f a = b) :
    Agrees f (.ok a : Except (TranslateError L) α) (some b) := Or.inr ⟨a, rfl, by rw [h]⟩

theorem Agrees.library {y : Except L α} {b : β} (h : ∀ a, y = .ok a → f a = b) :
    Agrees f (y.mapError TranslateError.library) (some b) := by
  cases y with
  | error l => exact Or.inl ⟨l, rfl⟩
  | ok a => exact Agrees.ok (h a rfl)

theorem Agrees.bind {k : α → Except (TranslateError L) α'} {k' : β → Option β'}
    (h : Agrees f x m) (hk : ∀ a, x = .ok a → Agrees g (k a) (k' (f a))) :
    Agrees g (x >>= k) (m >>= k') := by
  rcases h with ⟨l, rfl⟩ | ⟨a, rfl, rfl⟩
  · exact Or.inl ⟨l, rfl⟩
  · exact hk a rfl

end

theorem agrees_all {f : Expr → Except (TranslateError L) E}
    {all : List Expr → Except (TranslateError L) (List E)} (hnil : all [] = .ok [])
    (hcons : ∀ e es, all (e :: es) = do
      let x ← f e
      let xs ← all es
      return x :: xs)
    (h : ∀ e ∈ es, Agrees value (f e) (r.value e)) :
    Agrees (List.map value) (all es) (r.values es) := by
  induction es with
  | nil =>
    rw [hnil, Reading.values]
    exact Agrees.ok rfl
  | cons e es ih =>
    rw [hcons, Reading.values]
    apply (h e List.mem_cons_self).bind
    intro x _
    apply (ih fun a ha => h a (List.mem_cons_of_mem _ ha)).bind
    intro xs _
    exact Agrees.ok rfl

theorem all_length {f : Expr → Except (TranslateError L) E}
    {all : List Expr → Except (TranslateError L) (List E)} (hnil : all [] = .ok [])
    (hcons : ∀ e es, all (e :: es) = do
      let x ← f e
      let xs ← all es
      return x :: xs) {xs : List E} (h : all es = .ok xs) : xs.length = es.length := by
  induction es generalizing xs with
  | nil =>
    rw [hnil] at h
    cases h
    rfl
  | cons e es ih =>
    rw [hcons] at h
    obtain ⟨x, -, h⟩ := bind_eq_ok.mp h
    obtain ⟨xs', hxs', h⟩ := bind_eq_ok.mp h
    cases h
    rw [List.length_cons, List.length_cons, ih hxs']

theorem value_call {id : String} {args keywords : List Expr} (hwhere : id ≠ "where") :
    r.value (.call (.name id) args keywords) = (r.values args).map (r.func id) := by
  rw [Reading.value]
  cases r.values args with
  | none => rfl
  | some vs =>
    rw [Option.bind_eq_bind, Option.bind_some, Option.map_some]
    split
    · exact absurd rfl hwhere
    · rfl

theorem value_where {c a b : Expr} : r.value (.call (.name "where") [c, a, b] []) = (do
    let u ← r.value c
    let v ← r.value a
    let w ← r.value b
    return r.cond u v w) := by
  rw [Reading.value, Reading.values, Reading.values, Reading.values, Reading.values]
  cases r.value c <;> cases r.value a <;> cases r.value b <;> rfl

/-! ## The frame library -/

/-- The operations of the frame library have the values of the syntax. The library has no `expm1` of
its own. -/
structure Polars.Sound (p : Polars L E) (r : Reading V) (value : E → V) : Prop where
  lit : ∀ c x, p.lit c = .ok x → value x = r.constant c
  col : ∀ id, value (p.col id) = r.name id
  neg : ∀ x, value (p.neg x) = r.neg (value x)
  invert : ∀ x, value (p.invert x) = r.not (value x)
  add : ∀ x y, value (p.add x y) = r.binary .add (value x) (value y)
  sub : ∀ x y, value (p.sub x y) = r.binary .sub (value x) (value y)
  mul : ∀ x y, value (p.mul x y) = r.binary .mult (value x) (value y)
  truediv : ∀ x y, value (p.truediv x y) = r.binary .div (value x) (value y)
  mod : ∀ x y, value (p.mod x y) = r.binary .mod (value x) (value y)
  pow : ∀ x y, value (p.pow x y) = r.binary .pow (value x) (value y)
  and : ∀ x y, value (p.and x y) = r.bool .and (value x) (value y)
  or : ∀ x y, value (p.or x y) = r.bool .or (value x) (value y)
  eq : ∀ x y, value (p.eq x y) = r.compare .eq (value x) (value y)
  ne : ∀ x y, value (p.ne x y) = r.compare .notEq (value x) (value y)
  lt : ∀ x y, value (p.lt x y) = r.compare .lt (value x) (value y)
  le : ∀ x y, value (p.le x y) = r.compare .ltE (value x) (value y)
  gt : ∀ x y, value (p.gt x y) = r.compare .gt (value x) (value y)
  ge : ∀ x y, value (p.ge x y) = r.compare .gtE (value x) (value y)
  whenThenOtherwise : ∀ c x y,
    value (p.whenThenOtherwise c x y) = r.cond (value c) (value x) (value y)
  abs : ∀ x, value (p.abs x) = r.func "abs" [value x]
  round : ∀ x, value (p.round x 0) = r.func "round" [value x]
  floor : ∀ x, value (p.floor x) = r.func "floor" [value x]
  ceil : ∀ x, value (p.ceil x) = r.func "ceil" [value x]
  log : ∀ x, value (p.log x) = r.func "log" [value x]
  exp : ∀ x, value (p.exp x) = r.func "exp" [value x]
  sqrt : ∀ x, value (p.sqrt x) = r.func "sqrt" [value x]
  log1p : ∀ x, value (p.log1p x) = r.func "log1p" [value x]
  clip : ∀ x y z, value (p.clip x y z) = r.func "clip" [value x, value y, value z]
  minHorizontal : ∀ xs, value (p.minHorizontal xs) = r.func "min" (xs.map value)
  maxHorizontal : ∀ xs, value (p.maxHorizontal xs) = r.func "max" (xs.map value)
  coalesce : ∀ xs, value (p.coalesce xs) = r.func "coalesce" (xs.map value)
  expm1 : ∀ v, r.func "expm1" [v] = r.binary .sub (r.func "exp" [v]) (value p.one)

theorem functions_subset {id : String} (h : id ∈ functions profile) : id ∈ lenientFunctions := by
  rw [functions] at h
  split_ifs at h
  · exact List.mem_append_left _ h
  · exact h

section Polars

variable {p : Polars L E} (hsound : p.Sound r value)

include hsound

theorem binary_agrees {op : Operator} (hop : op ∈ operators profile) (x y : E) :
    Agrees value (p.binary op x y) (some (r.binary op (value x) (value y))) := by
  cases op with
  | add => exact Agrees.ok (hsound.add x y)
  | sub => exact Agrees.ok (hsound.sub x y)
  | mult => exact Agrees.ok (hsound.mul x y)
  | div => exact Agrees.ok (hsound.truediv x y)
  | mod => exact Agrees.ok (hsound.mod x y)
  | pow => exact Agrees.ok (hsound.pow x y)
  | _ => exact absurd hop (by cases profile <;> decide)

theorem comparison_agrees {op : CmpOp} (hop : op ∈ comparisonOps) (x y : E) :
    Agrees value (p.comparison op x y) (some (r.compare op (value x) (value y))) := by
  cases op with
  | eq => exact Agrees.ok (hsound.eq x y)
  | notEq => exact Agrees.ok (hsound.ne x y)
  | lt => exact Agrees.ok (hsound.lt x y)
  | ltE => exact Agrees.ok (hsound.le x y)
  | gt => exact Agrees.ok (hsound.gt x y)
  | gtE => exact Agrees.ok (hsound.ge x y)
  | _ => exact absurd hop (by decide)

/-- A listed function with the arguments that it takes. -/
theorem call_agrees {id : String} {xs : List E} (hid : id ∈ lenientFunctions)
    (hwhere : id ≠ "where") (htakes : Takes id xs.length) :
    Agrees value (p.call id xs) (some (r.func id (xs.map value))) := by
  obtain ⟨harity, hpos⟩ := htakes
  cases xs with
  | nil => exact absurd hpos (lt_irrefl 0)
  | cons x xs =>
  have hone : arity id = some 1 → xs = [] := fun h => by simpa using harity 1 h
  simp only [lenientFunctions, strictFunctions, List.cons_append, List.nil_append, List.mem_cons,
    List.not_mem_nil, or_false] at hid
  rcases hid with rfl | rfl | rfl | rfl | rfl | rfl | rfl | rfl | rfl | rfl | rfl | rfl | rfl | rfl
  · rw [hone rfl]
    exact Agrees.ok (hsound.log x)
  · rw [hone rfl]
    exact Agrees.ok (hsound.exp x)
  · rw [hone rfl]
    exact Agrees.ok (hsound.sqrt x)
  · rw [hone rfl]
    exact Agrees.ok (hsound.abs x)
  · exact Agrees.ok (hsound.minHorizontal _)
  · exact Agrees.ok (hsound.maxHorizontal _)
  · obtain ⟨a, b, c, hthree⟩ := List.length_eq_three.mp (harity 3 rfl)
    rw [hthree]
    exact Agrees.ok (hsound.clip a b c)
  · exact absurd rfl hwhere
  · rw [hone rfl]
    exact Agrees.ok (hsound.log1p x)
  · rw [hone rfl]
    refine Agrees.ok ?_
    rw [hsound.sub, hsound.exp]
    exact (hsound.expm1 (value x)).symm
  · rw [hone rfl]
    exact Agrees.ok (hsound.ceil x)
  · exact Agrees.ok (hsound.coalesce _)
  · rw [hone rfl]
    exact Agrees.ok (hsound.floor x)
  · rw [hone rfl]
    exact Agrees.ok (hsound.round x)

omit hsound in
theorem foldl_value {combine : E → E → E} {op : BoolOperator}
    (h : ∀ x y, value (combine x y) = r.bool op (value x) (value y)) (x : E) (xs : List E) :
    value (xs.foldl combine x) = (xs.map value).foldl (r.bool op) (value x) := by
  induction xs generalizing x with
  | nil => rfl
  | cons y xs ih => rw [List.foldl_cons, ih, h, List.map_cons, List.foldl_cons]

omit hsound in
theorem translate_where {c a b : Expr} : p.translate (.call (.name "where") [c, a, b] []) = (do
    let x ← p.translate c
    let y ← p.translate a
    let z ← p.translate b
    return p.whenThenOtherwise x y z) := by
  rw [Polars.translate, Polars.translateAll, Polars.translateAll, Polars.translateAll,
    Polars.translateAll]
  cases p.translate c <;> cases p.translate a <;> cases p.translate b <;> rfl

/-- The translation of a tree of the grammar. -/
theorem translate_agrees (h : Grammar profile bound e) :
    Agrees value (p.translate e) (r.value e) := by
  have hnil : p.translateAll [] = .ok [] := by rw [Polars.translateAll]; rfl
  have hcons := fun e es => Polars.translateAll.eq_2 p e es
  induction h with
  | constant =>
    rw [Polars.translate, Reading.value]
    exact Agrees.library fun x hx => hsound.lit _ x hx
  | name =>
    rw [Polars.translate, Reading.value]
    exact Agrees.ok (hsound.col _)
  | @unaryOp op _ hop _ ih =>
    cases op with
    | uSub =>
      rw [Polars.translate, Reading.value]
      exact ih.bind fun x _ => Agrees.ok (hsound.neg x)
    | uAdd =>
      rw [Polars.translate, Reading.value]
      exact ih
    | not =>
      rw [Polars.translate, Reading.value]
      exact ih.bind fun x _ => Agrees.ok (hsound.invert x)
    | invert => exact absurd hop (by cases profile <;> decide)
  | binOp hop _ _ ihl ihr =>
    rw [Polars.translate, Reading.value]
    exact ihl.bind fun x _ => ihr.bind fun y _ => binary_agrees hsound hop x y
  | @boolOp op first others _ _ _ ih ihs =>
    have hothers := agrees_all hnil hcons ihs
    rw [Reading.value]
    cases op with
    | and =>
      rw [Polars.translate]
      exact ih.bind fun x _ => hothers.bind fun xs _ => Agrees.ok (foldl_value hsound.and x xs)
    | or =>
      rw [Polars.translate]
      exact ih.bind fun x _ => hothers.bind fun xs _ => Agrees.ok (foldl_value hsound.or x xs)
  | compare _ hop _ _ ihl ihr =>
    rw [Polars.translate, Reading.value]
    exact ihl.bind fun x _ => ihr.bind fun y _ => comparison_agrees hsound hop x y
  | ifExp _ _ _ _ iht ihb ihe =>
    rw [Polars.translate, Reading.value]
    exact iht.bind fun c _ => ihb.bind fun x _ => ihe.bind fun y _ =>
      Agrees.ok (hsound.whenThenOtherwise c x y)
  | @conditional l r' a b op ops hop _ _ _ _ ihl ihr iha ihb =>
    have hcondition : Agrees value (p.translate (.compare l op r' ops []))
        (r.value (.compare l op r' ops [])) := by
      rw [Polars.translate, Reading.value]
      exact ihl.bind fun x _ => ihr.bind fun y _ => comparison_agrees hsound hop x y
    rw [translate_where, value_where]
    exact hcondition.bind fun c _ => iha.bind fun x _ => ihb.bind fun y _ =>
      Agrees.ok (hsound.whenThenOtherwise c x y)
  | @call id args hid hwhere htakes _ ih =>
    rw [Polars.translate, value_call hwhere, Option.map_eq_bind]
    apply (agrees_all hnil hcons ih).bind
    intro xs hxs
    rw [← all_length hnil hcons hxs] at htakes
    exact call_agrees hsound (functions_subset hid) hwhere htakes

end Polars

/-! ## The symbolic library -/

/-- What the symbolic library builds has the values of the syntax. It has no `clip` of its own. The
library simplifies as it builds, and its simplifications hold generically (`f / f` is built as `1`,
wherever `f` vanishes): this is asked of readings at which they hold. The expressions of the two
libraries are of one type, to be read by one `value`. -/
structure SymPy.Sound (s : SymPy L E) (r : Reading V) (value : E → V) : Prop where
  integer : ∀ n z, s.integer n = .ok z → value z = r.constant (.int n)
  float : ∀ bits z, s.float bits = .ok z → value z = r.constant (.float bits)
  symbol : ∀ id, value (s.symbol id) = r.name id
  neg : ∀ x z, s.neg x = .ok z → value z = r.neg (value x)
  binary : ∀ op combine, s.binary op = some combine → ∀ x y z, combine x y = .ok z →
    value z = r.binary op (value x) (value y)
  relation : ∀ op relate, s.relation op = some relate → ∀ x y z, relate x y = .ok z →
    value z = r.compare op (value x) (value y)
  piecewise : ∀ c x y z, s.piecewise c x y = .ok z → value z = r.cond (value c) (value x) (value y)
  log : ∀ x z, s.log x = .ok z → value z = r.func "log" [value x]
  exp : ∀ x z, s.exp x = .ok z → value z = r.func "exp" [value x]
  sqrt : ∀ x z, s.sqrt x = .ok z → value z = r.func "sqrt" [value x]
  abs : ∀ x z, s.abs x = .ok z → value z = r.func "abs" [value x]
  log1p : ∀ x z, s.log1p x = .ok z → value z = r.func "log1p" [value x]
  expm1 : ∀ x z, s.expm1 x = .ok z → value z = r.func "expm1" [value x]
  min : ∀ xs z, s.min xs = .ok z → value z = r.func "min" (xs.map value)
  max : ∀ xs z, s.max xs = .ok z → value z = r.func "max" (xs.map value)
  clip : ∀ u v w, r.func "clip" [u, v, w] = r.func "min" [r.func "max" [u, v], w]

section SymPy

variable {s : SymPy L E} (hsound : s.Sound r value) {table : List String}

include hsound

/-- A listed function of the strict profiles with the arguments that it takes. -/
theorem symPy_call_agrees {id : String} {xs : List E} (hid : id ∈ strictFunctions)
    (hwhere : id ≠ "where") (htakes : Takes id xs.length) :
    Agrees value (s.call id xs) (some (r.func id (xs.map value))) := by
  obtain ⟨harity, hpos⟩ := htakes
  cases xs with
  | nil => exact absurd hpos (lt_irrefl 0)
  | cons x xs =>
  have hone : arity id = some 1 → xs = [] := fun h => by simpa using harity 1 h
  simp only [strictFunctions, List.mem_cons, List.not_mem_nil, or_false] at hid
  rcases hid with rfl | rfl | rfl | rfl | rfl | rfl | rfl | rfl | rfl | rfl
  · rw [hone rfl]
    exact Agrees.library (hsound.log x)
  · rw [hone rfl]
    exact Agrees.library (hsound.exp x)
  · rw [hone rfl]
    exact Agrees.library (hsound.sqrt x)
  · rw [hone rfl]
    exact Agrees.library (hsound.abs x)
  · exact Agrees.library (hsound.min _)
  · exact Agrees.library (hsound.max _)
  · obtain ⟨a, b, c, hthree⟩ := List.length_eq_three.mp (harity 3 rfl)
    rw [hthree]
    have hmax : Agrees value (SymPy.lift (s.max [a, b])) (some (r.func "max" [value a, value b])) :=
      Agrees.library (hsound.max [a, b])
    have hmin : ∀ z, Agrees value (SymPy.lift (s.min [z, c]))
        (some (r.func "min" [value z, value c])) := fun z => Agrees.library (hsound.min [z, c])
    rw [List.map_cons, List.map_cons, List.map_cons, List.map_nil, hsound.clip]
    have hclip := fun z (_ : SymPy.lift (s.max [a, b]) = .ok z) => hmin z
    let clipped := fun v => some (r.func "min" [v, value c])
    exact @Agrees.bind _ _ _ _ _ _ _ _ _ _ clipped hmax hclip
  · exact absurd rfl hwhere
  · rw [hone rfl]
    exact Agrees.library (hsound.log1p x)
  · rw [hone rfl]
    exact Agrees.library (hsound.expm1 x)

omit hsound in
theorem build_call {id : String} {args keywords : List Expr} (hwhere : id ≠ "where") :
    s.build table (.call (.name id) args keywords) = (do
      let xs ← s.buildAll table args
      s.call id xs) := by
  by_cases hthree : ∃ c a b, args = [c, a, b]
  · obtain ⟨c, a, b, rfl⟩ := hthree
    rw [SymPy.build, if_neg hwhere]
  · rw [SymPy.build, if_neg hwhere]
    exact fun c a b h => hthree ⟨c, a, b, h⟩

/-- The build of a tree of a strict grammar whose names are in the table. -/
theorem build_agrees (hstrict : profile.strict = true) (hbound : ∀ id, bound id → id ∈ table)
    (h : Grammar profile bound e) : Agrees value (s.build table e) (r.value e) := by
  have hnil : s.buildAll table [] = .ok [] := by rw [SymPy.buildAll]; rfl
  have hcons := fun e es => SymPy.buildAll.eq_2 s table e es
  have hfunctions : functions profile = strictFunctions := if_pos hstrict
  have hoperators : operators profile = [.add, .sub, .mult, .div, .pow] := if_pos hstrict
  have hunary : unaryOps profile = [.uSub] := if_pos hstrict
  have hlenient : ¬ profile.strict = false := by simp [hstrict]
  induction h with
  | @constant c hc =>
    rw [Reading.value]
    cases c with
    | int n =>
      rw [SymPy.build]
      exact Agrees.library (hsound.integer n)
    | float bits =>
      rw [SymPy.build]
      exact Agrees.library (hsound.float bits)
    | _ => exact absurd (hc hstrict) id
  | @name id hid =>
    rw [SymPy.build, Reading.value, ensure, if_pos (hbound id hid)]
    exact Agrees.ok (hsound.symbol id)
  | @unaryOp op _ hop _ ih =>
    rw [hunary, List.mem_singleton] at hop
    subst hop
    rw [SymPy.build, Reading.value]
    exact ih.bind fun x _ => Agrees.library (hsound.neg x)
  | @binOp l r' op hop _ _ ihl ihr =>
    obtain ⟨combine, hcombine⟩ : ∃ combine, s.binary op = some combine := by
      rw [hoperators] at hop
      simp only [List.mem_cons, List.not_mem_nil, or_false] at hop
      rcases hop with rfl | rfl | rfl | rfl | rfl
      all_goals exact ⟨_, rfl⟩
    rw [SymPy.build, Reading.value, hcombine]
    exact ihl.bind fun x _ => ihr.bind fun y _ =>
      Agrees.library (hsound.binary op combine hcombine x y)
  | boolOp hfalse => exact absurd hfalse hlenient
  | compare hfalse => exact absurd hfalse hlenient
  | ifExp hfalse => exact absurd hfalse hlenient
  | @conditional l r' a b op ops hop _ _ _ _ ihl ihr iha ihb =>
    obtain ⟨relate, hrelate⟩ : ∃ relate, s.relation op = some relate := by
      simp only [comparisonOps, List.mem_cons, List.not_mem_nil, or_false] at hop
      rcases hop with rfl | rfl | rfl | rfl | rfl | rfl
      all_goals exact ⟨_, rfl⟩
    have hcondition : Agrees value (s.buildRelation table (.compare l op r' ops []))
        (r.value (.compare l op r' ops [])) := by
      rw [SymPy.buildRelation, Reading.value, hrelate]
      exact ihl.bind fun x _ => ihr.bind fun y _ =>
        Agrees.library (hsound.relation op relate hrelate x y)
    rw [SymPy.build, if_pos rfl, value_where]
    exact hcondition.bind fun c _ => iha.bind fun x _ => ihb.bind fun y _ =>
      Agrees.library (hsound.piecewise c x y)
  | @call id args hid hwhere htakes _ ih =>
    rw [build_call hwhere, value_call hwhere, Option.map_eq_bind]
    apply (agrees_all hnil hcons ih).bind
    intro xs hxs
    rw [← all_length hnil hcons hxs] at htakes
    exact symPy_call_agrees hsound (hfunctions ▸ hid) hwhere htakes

end SymPy

/-! ## The published grammar and its translators -/

/-- A text whose calls all have arguments is accepted if and only if its tree is of the grammar and
within the limits. What is accepted in any profile but the objective's is translated to the frame
library, and in the objective's to the symbolic one, with the value of the tree, unless the library
itself refuses. -/
theorem accepted_and_translated (profile : GrammarProfile) (astParse : String → Option Expr)
    (text : String) (symbols : Option (List String)) (limits : ExpressionLimits) (body : Expr)
    (htext : astParse text = some body) (happly : CallsApply body) (p : Polars L E)
    (s : SymPy L E) (r : Reading V) (value : E → V) (hpolars : p.Sound r value)
    (hsympy : s.Sound r value) :
    (parseExpression profile astParse text symbols limits = .ok body ↔
      (profile.strict = true → symbols.isSome = true) ∧
        (body.nodes ≤ limits.maxNodes ∧ body.depth ≤ limits.maxDepth) ∧
          Grammar profile (Bound symbols) body) ∧
    (parseExpression profile astParse text symbols limits = .ok body →
      (profile ≠ .objective → Agrees value (p.translate body) (r.value body)) ∧
        (profile = .objective → ∀ table, symbols = some table →
          Agrees value (s.build table body) (r.value body))) := by
  have hgrammar : parseExpression profile astParse text symbols limits = .ok body ↔
      (profile.strict = true → symbols.isSome = true) ∧
        (body.nodes ≤ limits.maxNodes ∧ body.depth ≤ limits.maxDepth) ∧
          Grammar profile (Bound symbols) body := parseExpression_grammar htext happly
  refine ⟨hgrammar, fun haccepted => ?_⟩
  obtain ⟨-, -, h⟩ := hgrammar.mp haccepted
  constructor
  · intro _
    exact translate_agrees hpolars h
  · rintro rfl table rfl
    exact build_agrees hsympy rfl (fun id hid => hid table rfl) h

/-! ## A small library, and a deep expression -/

namespace Reading

variable (r : Reading V)

/-- The frame library that builds values. -/
def polars : Polars L V where
  lit c := .ok (r.constant c)
  one := r.constant (.int 1)
  col := r.name
  neg := r.neg
  invert := r.not
  add := r.binary .add
  sub := r.binary .sub
  mul := r.binary .mult
  truediv := r.binary .div
  mod := r.binary .mod
  pow := r.binary .pow
  and := r.bool .and
  or := r.bool .or
  eq := r.compare .eq
  ne := r.compare .notEq
  lt := r.compare .lt
  le := r.compare .ltE
  gt := r.compare .gt
  ge := r.compare .gtE
  whenThenOtherwise := r.cond
  abs x := r.func "abs" [x]
  round x _ := r.func "round" [x]
  floor x := r.func "floor" [x]
  ceil x := r.func "ceil" [x]
  log x := r.func "log" [x]
  exp x := r.func "exp" [x]
  sqrt x := r.func "sqrt" [x]
  log1p x := r.func "log1p" [x]
  clip x y z := r.func "clip" [x, y, z]
  minHorizontal := r.func "min"
  maxHorizontal := r.func "max"
  coalesce := r.func "coalesce"

/-- The symbolic library that builds values. -/
def symPy : SymPy L V where
  integer n := .ok (r.constant (.int n))
  float bits := .ok (r.constant (.float bits))
  symbol := r.name
  neg x := .ok (r.neg x)
  add x y := .ok (r.binary .add x y)
  sub x y := .ok (r.binary .sub x y)
  mul x y := .ok (r.binary .mult x y)
  truediv x y := .ok (r.binary .div x y)
  pow x y := .ok (r.binary .pow x y)
  eq x y := .ok (r.compare .eq x y)
  ne x y := .ok (r.compare .notEq x y)
  lt x y := .ok (r.compare .lt x y)
  le x y := .ok (r.compare .ltE x y)
  gt x y := .ok (r.compare .gt x y)
  ge x y := .ok (r.compare .gtE x y)
  piecewise c x y := .ok (r.cond c x y)
  log x := .ok (r.func "log" [x])
  exp x := .ok (r.func "exp" [x])
  sqrt x := .ok (r.func "sqrt" [x])
  abs x := .ok (r.func "abs" [x])
  log1p x := .ok (r.func "log1p" [x])
  expm1 x := .ok (r.func "expm1" [x])
  min xs := .ok (r.func "min" xs)
  max xs := .ok (r.func "max" xs)

end Reading

/-- The values of one row with the arithmetic of the rationals, on the functions that have one. -/
def rationals (row : String → ℚ) : Reading ℚ where
  constant
    | .int n => n
    | _ => 0
  name := row
  neg x := -x
  not x := if x = 0 then 1 else 0
  binary
    | .add => (· + ·)
    | .sub => (· - ·)
    | .mult => (· * ·)
    | .div => (· / ·)
    | _ => fun _ _ => 0
  bool
    | .and => fun x y => if x = 0 then x else y
    | .or => fun x y => if x = 0 then y else x
  compare
    | .eq => fun x y => if x = y then 1 else 0
    | .notEq => fun x y => if x ≠ y then 1 else 0
    | .lt => fun x y => if x < y then 1 else 0
    | .ltE => fun x y => if x ≤ y then 1 else 0
    | .gt => fun x y => if y < x then 1 else 0
    | .gtE => fun x y => if y ≤ x then 1 else 0
    | _ => fun _ _ => 0
  cond c x y := if c = 0 then y else x
  func
    | "min", x :: xs => xs.foldl min x
    | "max", x :: xs => xs.foldl max x
    | "clip", [x, y, z] => min (max x y) z
    | "abs", [x] => |x|
    | "expm1", _ => -1
    | _, _ => 0

theorem rationals_polars (row : String → ℚ) :
    ((rationals row).polars : Polars Unit ℚ).Sound (rationals row) id := by
  constructor
  case lit =>
    rintro c _ ⟨⟩
    rfl
  case minHorizontal => exact fun xs => by rw [List.map_id]; rfl
  case maxHorizontal => exact fun xs => by rw [List.map_id]; rfl
  case coalesce => exact fun xs => by rw [List.map_id]; rfl
  case expm1 =>
    intro v
    change (-1 : ℚ) = 0 - ((1 : ℕ) : ℚ)
    norm_num
  all_goals intros; rfl

theorem rationals_symPy (row : String → ℚ) :
    ((rationals row).symPy : SymPy Unit ℚ).Sound (rationals row) id := by
  constructor
  case binary =>
    intro op combine hop x y z hz
    cases op <;> cases hop <;> cases hz <;> rfl
  case relation =>
    intro op relate hop x y z hz
    cases op <;> cases hop <;> cases hz <;> rfl
  case min =>
    rintro xs _ ⟨⟩
    rw [List.map_id]
    rfl
  case max =>
    rintro xs _ ⟨⟩
    rw [List.map_id]
    rfl
  case clip => exact fun u v w => rfl
  case symbol => exact fun id => rfl
  all_goals
    intros
    rename_i h
    cases h
    rfl

/-- `where(y > 0, y + 1, max(y, 2))` -/
def losses : Expr :=
  .call (.name "where") [.compare (.name "y") .gt (.constant (.int 0)) (fun _ => .gt) [],
    .binOp (.name "y") .add (.constant (.int 1)),
    .call (.name "max") [.name "y", .constant (.int 2)] []] []

theorem losses_apply : CallsApply losses := by
  have hleaf : ∀ x : Expr, x.children = [] → CallsApply x := by
    intro x hx
    apply CallsApply.intro
    · rintro func keywords rfl
      cases hx
    · rw [hx]
      rintro _ ⟨⟩
  apply CallsApply.intro (by simp [losses])
  simp only [losses, Expr.children, List.append_nil, List.forall_mem_cons,
    List.not_mem_nil, false_implies, implies_true, and_true]
  refine ⟨hleaf _ rfl, .intro (by simp) ?_, .intro (by simp) ?_, .intro (by simp) ?_⟩
  all_goals
    intro c hc
    simp only [Expr.children, List.append_nil, List.mem_cons, List.not_mem_nil,
      or_false] at hc
  · rcases hc with rfl | rfl <;> exact hleaf _ rfl
  · rcases hc with rfl | rfl <;> exact hleaf _ rfl
  · rcases hc with rfl | rfl | rfl <;> exact hleaf _ rfl

theorem losses_accepted :
    (parseExpression .objective (fun _ => some losses) "where(y > 0, y + 1, max(y, 2))"
        (some ["y"]) defaultLimits = .ok losses ↔
      (GrammarProfile.objective.strict = true → (some ["y"]).isSome = true) ∧
        (losses.nodes ≤ defaultLimits.maxNodes ∧ losses.depth ≤ defaultLimits.maxDepth) ∧
          Grammar .objective (Bound (some ["y"])) losses) ∧
    (parseExpression .objective (fun _ => some losses) "where(y > 0, y + 1, max(y, 2))"
        (some ["y"]) defaultLimits = .ok losses →
      (GrammarProfile.objective ≠ .objective → Agrees id
        (((rationals fun _ => 3).polars : Polars Unit ℚ).translate losses)
        ((rationals fun _ => 3).value losses)) ∧
      (GrammarProfile.objective = .objective → ∀ table, some ["y"] = some table → Agrees id
        (((rationals fun _ => 3).symPy : SymPy Unit ℚ).build table losses)
        ((rationals fun _ => 3).value losses))) :=
  accepted_and_translated .objective (fun _ => some losses) "where(y > 0, y + 1, max(y, 2))"
    (some ["y"]) defaultLimits losses rfl losses_apply (rationals fun _ => 3).polars
    (rationals fun _ => 3).symPy (rationals fun _ => 3) id (rationals_polars _) (rationals_symPy _)

/-- The symbol `y` under a number of signs. -/
def signs : ℕ → Expr
  | 0 => .name "y"
  | n + 1 => .unaryOp .uSub (signs n)

theorem signs_grammar (n : ℕ) : Grammar .objective (Bound (some ["y"])) (signs n) := by
  induction n with
  | zero => exact .name (by simp [Bound])
  | succ n ih => exact .unaryOp (by decide) ih

/-- A text of the grammar is refused for its depth. -/
theorem deep_refused : ¬ ∀ (profile : GrammarProfile) (astParse : String → Option Expr)
    (text : String) (symbols : List String) (body : Expr), profile.strict = true →
    astParse text = some body → (parseExpression profile astParse text (some symbols)
      defaultLimits = .ok body ↔ Grammar profile (Bound (some symbols)) body) := by
  intro h
  have haccepted := (h .objective (fun _ => some (signs 20)) "--------------------y" ["y"]
    (signs 20) rfl rfl).mpr (signs_grammar 20)
  have hdepth := (parseExpression_eq_ok.mp haccepted).2.2.1.2
  exact absurd hdepth (by decide)

end GiPricing.Expressions
