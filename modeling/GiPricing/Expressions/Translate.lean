import GiPricing.Expressions.Grammar

/-! # The translators

Two recursions build an expression of a library from a parsed tree. On the trees of the grammar each
of them fails only where the library itself refuses, and what it builds has the value of the tree.
-/

namespace GiPricing.Expressions

open Failure GiPricing.Graph

variable {L E V : Type}

/-- What a translation raises: its own refusal, the library's, or the language's lookup or unpacking
error. -/
inductive TranslateError (L : Type)
  | expression (error : ExpressionError)
  | library (error : L)
  | keyError
  | indexError
  | assertion

/-! ## The frame library -/

/-- The expressions of the frame library. Only a literal may be refused when it is built. -/
structure Polars (L E : Type) where
  lit : Constant → Except L E
  /-- The number one as an operand. -/
  one : E
  col : String → E
  neg : E → E
  invert : E → E
  add : E → E → E
  sub : E → E → E
  mul : E → E → E
  truediv : E → E → E
  mod : E → E → E
  pow : E → E → E
  and : E → E → E
  or : E → E → E
  eq : E → E → E
  ne : E → E → E
  lt : E → E → E
  le : E → E → E
  gt : E → E → E
  ge : E → E → E
  whenThenOtherwise : E → E → E → E
  abs : E → E
  round : E → ℕ → E
  floor : E → E
  ceil : E → E
  log : E → E
  exp : E → E
  sqrt : E → E
  log1p : E → E
  clip : E → E → E → E
  minHorizontal : List E → E
  maxHorizontal : List E → E
  coalesce : List E → E

namespace Polars

variable (p : Polars L E)

def binary (op : Operator) (left right : E) : Except (TranslateError L) E :=
  match op with
  | .add => .ok (p.add left right)
  | .sub => .ok (p.sub left right)
  | .mult => .ok (p.mul left right)
  | .div => .ok (p.truediv left right)
  | .mod => .ok (p.mod left right)
  | .pow => .ok (p.pow left right)
  | op => .error (.expression (.notAnOperator (Node.operator op).className))

def comparison (op : CmpOp) (left right : E) : Except (TranslateError L) E :=
  match op with
  | .eq => .ok (p.eq left right)
  | .notEq => .ok (p.ne left right)
  | .lt => .ok (p.lt left right)
  | .ltE => .ok (p.le left right)
  | .gt => .ok (p.gt left right)
  | .gtE => .ok (p.ge left right)
  | op => .error (.expression (.notAComparison (Node.comparison op).className))

/-- `_call`: an argument after those that a function reads is not read. -/
def call (name : String) (args : List E) : Except (TranslateError L) E :=
  match args with
  | [] => .error (.expression (.noArgument name))
  | x :: rest =>
    match name with
    | "abs" => .ok (p.abs x)
    | "round" => .ok (p.round x 0)
    | "floor" => .ok (p.floor x)
    | "ceil" => .ok (p.ceil x)
    | "log" => .ok (p.log x)
    | "exp" => .ok (p.exp x)
    | "sqrt" => .ok (p.sqrt x)
    | "min" => .ok (p.minHorizontal (x :: rest))
    | "max" => .ok (p.maxHorizontal (x :: rest))
    | "coalesce" => .ok (p.coalesce (x :: rest))
    | "where" => match rest with
      | y :: z :: _ => .ok (p.whenThenOtherwise x y z)
      | _ => .error .indexError
    | "clip" => match rest with
      | y :: z :: _ => .ok (p.clip x y z)
      | _ => .error .indexError
    | "log1p" => .ok (p.log1p x)
    | "expm1" => .ok (p.sub (p.exp x) p.one)
    | name => .error (.expression (.unknownFunction name))

mutual

/-- `_translate` -/
def translate : Expr → Except (TranslateError L) E
  | .constant value => (p.lit value).mapError .library
  | .name id => .ok (p.col id)
  | .unaryOp .uSub operand => do
    let x ← translate operand
    return p.neg x
  | .unaryOp .uAdd operand => translate operand
  | .unaryOp .not operand => do
    let x ← translate operand
    return p.invert x
  | .unaryOp .invert _ => .error (.expression (.notTranslatable "UnaryOp"))
  | .binOp left op right => do
    let x ← translate left
    let y ← translate right
    p.binary op x y
  | .boolOp op first others => do
    let x ← translate first
    let xs ← translateAll others
    return xs.foldl (match op with | .and => p.and | .or => p.or) x
  | .compare left op right _ [] => do
    let x ← translate left
    let y ← translate right
    p.comparison op x y
  | .compare .. => .error (.expression .chained)
  | .ifExp test body orelse => do
    let c ← translate test
    let x ← translate body
    let y ← translate orelse
    return p.whenThenOtherwise c x y
  | .call (.name id) args _ => do
    let xs ← translateAll args
    p.call id xs
  | .call .. => .error (.expression (.notTranslatable "Call"))
  | .other kind => .error (.expression (.notTranslatable (Node.expr (.other kind)).className))

def translateAll : List Expr → Except (TranslateError L) (List E)
  | [] => return []
  | e :: es => do
    let x ← translate e
    let xs ← translateAll es
    return x :: xs

end

end Polars

/-! ## The symbolic library -/

/-- The expressions of the symbolic library, which simplifies as it builds and may refuse. -/
structure SymPy (L E : Type) where
  integer : ℕ → Except L E
  float : UInt64 → Except L E
  symbol : String → E
  neg : E → Except L E
  add : E → E → Except L E
  sub : E → E → Except L E
  mul : E → E → Except L E
  truediv : E → E → Except L E
  pow : E → E → Except L E
  eq : E → E → Except L E
  ne : E → E → Except L E
  lt : E → E → Except L E
  le : E → E → Except L E
  gt : E → E → Except L E
  ge : E → E → Except L E
  /-- A value where a relation holds, and another elsewhere. -/
  piecewise : E → E → E → Except L E
  log : E → Except L E
  exp : E → Except L E
  sqrt : E → Except L E
  abs : E → Except L E
  log1p : E → Except L E
  expm1 : E → Except L E
  min : List E → Except L E
  max : List E → Except L E

namespace SymPy

variable (s : SymPy L E)

/-- What the library builds. -/
def lift {α : Type} (x : Except L α) : Except (TranslateError L) α := x.mapError .library

/-- `_BINARY` -/
def binary (op : Operator) : Option (E → E → Except L E) :=
  match op with
  | .add => some s.add
  | .sub => some s.sub
  | .mult => some s.mul
  | .div => some s.truediv
  | .pow => some s.pow
  | _ => none

/-- `_RELATIONS` -/
def relation (op : CmpOp) : Option (E → E → Except L E) :=
  match op with
  | .eq => some s.eq
  | .notEq => some s.ne
  | .lt => some s.lt
  | .ltE => some s.le
  | .gt => some s.gt
  | .gtE => some s.ge
  | _ => none

/-- `_call`, of every name but the conditional's. -/
def call (name : String) (built : List E) : Except (TranslateError L) E :=
  match name, built with
  | "log", x :: _ => lift (s.log x)
  | "exp", x :: _ => lift (s.exp x)
  | "sqrt", x :: _ => lift (s.sqrt x)
  | "abs", x :: _ => lift (s.abs x)
  | "min", xs => lift (s.min xs)
  | "max", xs => lift (s.max xs)
  | "clip", x :: y :: z :: _ => do
    let bounded ← lift (s.max [x, y])
    lift (s.min [bounded, z])
  | "log1p", x :: _ => lift (s.log1p x)
  | "expm1", x :: _ => lift (s.expm1 x)
  | name, _ =>
    if name ∈ ["log", "exp", "sqrt", "abs", "clip", "log1p", "expm1"] then .error .indexError
    else .error (.expression (.unknownFunction name))

mutual

/-- `_build`, over the symbols of the table. -/
def build (table : List String) : Expr → Except (TranslateError L) E
  | .constant (.int value) => lift (s.integer value)
  | .constant (.float bits) => lift (s.float bits)
  | .name id => do
    ensure (id ∈ table) .keyError
    return s.symbol id
  | .unaryOp .uSub operand => do
    let x ← build table operand
    lift (s.neg x)
  | .binOp left op right => do
    let combine ← require (s.binary op) (.expression (.notTranslatable "BinOp"))
    let x ← build table left
    let y ← build table right
    lift (combine x y)
  | .call (.name id) args _ =>
    if id = "where" then
      match args with
      | [condition, a, b] => do
        let r ← buildRelation table condition
        let x ← build table a
        let y ← build table b
        lift (s.piecewise r x y)
      | _ => .error .indexError
    else do
      let xs ← buildAll table args
      s.call id xs
  | e => .error (.expression (.notTranslatable (Node.expr e).className))

/-- The relation of a conditional, from its first operator. -/
def buildRelation (table : List String) : Expr → Except (TranslateError L) E
  | .compare left op right _ _ => do
    let relate ← require (s.relation op) .keyError
    let x ← build table left
    let y ← build table right
    lift (relate x y)
  | _ => .error .assertion

def buildAll (table : List String) : List Expr → Except (TranslateError L) (List E)
  | [] => return []
  | e :: es => do
    let x ← build table e
    let xs ← buildAll table es
    return x :: xs

end

end SymPy

/-! ## The value of a tree -/

/-- The values of the syntax: the operators, the conditional, and the functions by their names. -/
structure Reading (V : Type) where
  constant : Constant → V
  name : String → V
  neg : V → V
  not : V → V
  binary : Operator → V → V → V
  bool : BoolOperator → V → V → V
  compare : CmpOp → V → V → V
  cond : V → V → V → V
  func : String → List V → V

namespace Reading

variable (r : Reading V)

mutual

def value : Expr → Option V
  | .constant c => some (r.constant c)
  | .name id => some (r.name id)
  | .unaryOp .uSub e => do return r.neg (← value e)
  | .unaryOp .uAdd e => value e
  | .unaryOp .not e => do return r.not (← value e)
  | .unaryOp .invert _ => none
  | .binOp left op right => do return r.binary op (← value left) (← value right)
  | .boolOp op first others => do
    let v ← value first
    let vs ← values others
    return vs.foldl (r.bool op) v
  | .compare left op right _ [] => do return r.compare op (← value left) (← value right)
  | .compare .. => none
  | .ifExp test body orelse => do return r.cond (← value test) (← value body) (← value orelse)
  | .call (.name id) args _ => do
    let vs ← values args
    match id, vs with
    | "where", [c, a, b] => return r.cond c a b
    | _, vs => return r.func id vs
  | .call .. => none
  | .other _ => none

def values : List Expr → Option (List V)
  | [] => some []
  | e :: es => do return (← value e) :: (← values es)

end

end Reading

end GiPricing.Expressions
