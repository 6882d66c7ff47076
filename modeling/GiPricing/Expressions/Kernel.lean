import GiPricing.Expressions.Translate

/-! # Kernels

The array library's own evaluation of an expression. A kernel works element by element, so it is given
here at one element of the label, the raw score and the weight.
-/

namespace GiPricing.Expressions

open Failure

/-- The array library: what it makes of a literal, its operations, and its comparisons, by which an
element of two arrays is chosen. -/
structure NumPy (V B : Type) where
  float64 : Constant → Option V
  negative : V → V
  add : V → V → V
  subtract : V → V → V
  multiply : V → V → V
  divide : V → V → V
  power : V → V → V
  less : V → V → B
  lessEqual : V → V → B
  greater : V → V → B
  greaterEqual : V → V → B
  equal : V → V → B
  notEqual : V → V → B
  choose : B → V → V → V
  log : V → V
  exp : V → V
  sqrt : V → V
  abs : V → V
  log1p : V → V
  expm1 : V → V
  minimum : V → V → V
  maximum : V → V → V

inductive KernelError
  | keyError
  | indexError
  | overflow
  | notCompiled (node : String)
  deriving DecidableEq

namespace NumPy

variable {V B : Type} (np : NumPy V B)

/-- `_ARITHMETIC` -/
def arithmetic (op : Operator) : Option (V → V → V) :=
  match op with
  | .add => some np.add
  | .sub => some np.subtract
  | .mult => some np.multiply
  | .div => some np.divide
  | .pow => some np.power
  | _ => none

/-- `_COMPARISONS` -/
def comparison (op : CmpOp) : Option (V → V → B) :=
  match op with
  | .lt => some np.less
  | .ltE => some np.lessEqual
  | .gt => some np.greater
  | .gtE => some np.greaterEqual
  | .eq => some np.equal
  | .notEq => some np.notEqual
  | _ => none

/-- `_UNARY` -/
def unary (name : String) : Option (V → V) :=
  match name with
  | "log" => some np.log
  | "exp" => some np.exp
  | "sqrt" => some np.sqrt
  | "abs" => some np.abs
  | "log1p" => some np.log1p
  | "expm1" => some np.expm1
  | _ => none

/-- `_reduce` -/
def reduce (op : V → V → V) : List V → Except KernelError V
  | [] => .error .indexError
  | v :: vs => .ok (vs.foldl op v)

/-- A call of every name but the conditional's. -/
def call (name : String) (built : List V) : Except KernelError V :=
  match np.unary name with
  | some f => (require built.head? .indexError).map f
  | none =>
    if name = "min" then reduce np.minimum built
    else if name = "max" then reduce np.maximum built
    else if name = "clip" then
      match built with
      | x :: y :: z :: _ => .ok (np.minimum (np.maximum x y) z)
      | _ => .error .indexError
    else .error (.notCompiled "Call")

mutual

/-- `_evaluate`, over the values of the names. -/
def evaluate (values : String → Option V) : Expr → Except KernelError V
  | .constant c => match c with
    | .int _ | .float _ | .bool _ => require (np.float64 c) .overflow
    | _ => .error (.notCompiled "Constant")
  | .name id => require (values id) .keyError
  | .unaryOp .uSub operand => do return np.negative (← evaluate values operand)
  | .unaryOp .uAdd operand => evaluate values operand
  | .binOp left op right => do
    let combine ← require (np.arithmetic op) (.notCompiled "BinOp")
    let x ← evaluate values left
    let y ← evaluate values right
    return combine x y
  | .call (.name id) args _ =>
    if id = "where" then
      match args with
      | [condition, a, b] => do
        let c ← evaluateTest values condition
        let x ← evaluate values a
        let y ← evaluate values b
        return np.choose c x y
      | _ => .error (.notCompiled "Call")
    else do
      let xs ← evaluateAll values args
      np.call id xs
  | e => .error (.notCompiled (Node.expr e).className)

/-- The condition of a conditional, by its first operator. -/
def evaluateTest (values : String → Option V) : Expr → Except KernelError B
  | .compare left op right _ _ => do
    let relation ← require (np.comparison op) .keyError
    let x ← evaluate values left
    let y ← evaluate values right
    return relation x y
  | _ => .error (.notCompiled "Call")

def evaluateAll (values : String → Option V) : List Expr → Except KernelError (List V)
  | [] => return []
  | e :: es => do
    let x ← evaluate values e
    let xs ← evaluateAll values es
    return x :: xs

end

end NumPy

/-- A compiled expression: the label, the score and the weight in, one number out. -/
abbrev Kernel (V : Type) := V → V → V → Except KernelError V

section Kernels

variable {V B : Type} (np : NumPy V B) (parameters : List (String × V))

/-- The values of a kernel's names: a parameter goes before an argument of its name. -/
def kernelValues (y f w : V) (id : String) : Option V :=
  (parameters.lookup id).or ([("y", y), ("f", f), ("w", w)].lookup id)

/-- `_kernel` -/
def kernel (body : Expr) : Kernel V := fun y f w =>
  np.evaluate (kernelValues parameters y f w) body

end Kernels

end GiPricing.Expressions
