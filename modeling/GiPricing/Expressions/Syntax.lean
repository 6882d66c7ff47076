import GiPricing.Failure.Lists
import GiPricing.Graph.Walk

/-! # The restricted expression grammar

An expression is parsed to a tree of the language's own syntax. One walk checks each node against the
allow-list of its profile, the size limits follow, and then a recursion checks where comparisons and
literals stand.
-/

namespace GiPricing.Expressions

open Failure GiPricing.Graph

inductive GrammarProfile
  | objective
  | factor
  | recipe
  | check
  deriving DecidableEq

def GrammarProfile.text : GrammarProfile → String
  | objective => "objective"
  | factor => "factor"
  | recipe => "recipe"
  | check => "check"

def GrammarProfile.strict : GrammarProfile → Bool
  | objective | factor => true
  | recipe | check => false

/-! ## The syntax trees -/

inductive Operator
  | add | sub | mult | matMult | div | mod | pow | lShift | rShift | bitOr | bitXor | bitAnd | floorDiv
  deriving DecidableEq

inductive UnaryOp
  | invert | not | uAdd | uSub
  deriving DecidableEq

inductive BoolOperator
  | and | or
  deriving DecidableEq

inductive CmpOp
  | eq | notEq | lt | ltE | gt | gtE | is | isNot | isIn | notIn
  deriving DecidableEq

/-- A literal. The double of a number is its bits. -/
inductive Constant
  | none
  | ellipsis
  | bool (value : Bool)
  | int (value : ℕ)
  | float (bits : UInt64)
  | complex (bits : UInt64)
  | str (value : String)
  | bytes (value : List UInt8)
  deriving DecidableEq

/-- The other kinds of expression. The checks read nothing of them but the kind. -/
inductive OtherKind
  | namedExpr | lambda | dict | set | listComp | setComp | dictComp | generatorExp | await | yield
  | yieldFrom | formattedValue | joinedStr | attribute | subscript | starred | list | tuple | slice
  deriving DecidableEq

/-- An expression of the language. A boolean operator has two operands at least. A comparison has as
many operators as comparators: `chainOps` gives the operators before the comparators after the first. -/
inductive Expr
  | constant (value : Constant)
  | name (id : String)
  | unaryOp (op : UnaryOp) (operand : Expr)
  | binOp (left : Expr) (op : Operator) (right : Expr)
  | boolOp (op : BoolOperator) (first : Expr) (others : List Expr)
  | compare (left : Expr) (op : CmpOp) (right : Expr) (chainOps : ℕ → CmpOp) (chained : List Expr)
  | ifExp (test body orelse : Expr)
  | call (func : Expr) (args keywords : List Expr)
  | other (kind : OtherKind)

namespace Expr

/-- The children that are expressions, in the order of the fields. -/
def children : Expr → List Expr
  | constant _ | name _ | other _ => []
  | unaryOp _ operand => [operand]
  | binOp left _ right => [left, right]
  | boolOp _ first others => first :: others
  | compare left _ right _ chained => left :: right :: chained
  | ifExp test body orelse => [test, body, orelse]
  | call func args keywords => func :: args ++ keywords

mutual

/-- The number of expression nodes. -/
def nodes : Expr → ℕ
  | constant _ | name _ | other _ => 1
  | unaryOp _ operand => operand.nodes + 1
  | binOp left _ right => left.nodes + right.nodes + 1
  | boolOp _ first others => first.nodes + nodesOf others + 1
  | compare left _ right _ chained => left.nodes + right.nodes + nodesOf chained + 1
  | ifExp test body orelse => test.nodes + body.nodes + orelse.nodes + 1
  | call func args keywords => func.nodes + nodesOf args + nodesOf keywords + 1

def nodesOf : List Expr → ℕ
  | [] => 0
  | e :: es => e.nodes + nodesOf es

end

mutual

/-- The depth of the deepest node, the root at depth one. -/
def depth : Expr → ℕ
  | constant _ | name _ | other _ => 1
  | unaryOp _ operand => operand.depth + 1
  | binOp left _ right => max left.depth right.depth + 1
  | boolOp _ first others => max first.depth (depthOf others) + 1
  | compare left _ right _ chained => max left.depth (max right.depth (depthOf chained)) + 1
  | ifExp test body orelse => max test.depth (max body.depth orelse.depth) + 1
  | call func args keywords => max func.depth (max (depthOf args) (depthOf keywords)) + 1

def depthOf : List Expr → ℕ
  | [] => 0
  | e :: es => max e.depth (depthOf es)

end

attribute [local simp] nodes nodesOf depth depthOf

theorem nodesOf_eq (es : List Expr) : nodesOf es = (es.map nodes).sum := by
  induction es with
  | nil => rfl
  | cons e es ih => rw [nodesOf, ih, List.map_cons, List.sum_cons]

theorem nodes_eq (e : Expr) : e.nodes = (e.children.map nodes).sum + 1 := by
  cases e
  all_goals simp [children, nodesOf_eq] <;> omega

theorem depthOf_le {es : List Expr} {bound : ℕ} :
    depthOf es ≤ bound ↔ ∀ e ∈ es, e.depth ≤ bound := by
  induction es with
  | nil => simp
  | cons e es ih => rw [depthOf, max_le_iff, ih, List.forall_mem_cons]

theorem depth_le (e : Expr) (bound : ℕ) :
    e.depth ≤ bound + 1 ↔ ∀ c ∈ e.children, c.depth ≤ bound := by
  cases e
  all_goals simp [children, depthOf_le, or_imp, forall_and]

theorem depth_pos (e : Expr) : 0 < e.depth := by
  cases e
  all_goals simp

def tree : SizedTree Expr where
  children := children
  weight := nodes
  weight_lt e := by
    have := nodes_eq e
    omega
  weight_eq := nodes_eq
  height := depth
  height_pos := depth_pos
  height_le := depth_le

end Expr

/-- A node of a syntax tree. The function of a call is the same node as the expression, at a place that
the check of the symbols tells from the others. -/
inductive Node
  | expression (body : Expr)
  | expr (e : Expr)
  | called (func : Expr)
  | operator (op : Operator)
  | unary (op : UnaryOp)
  | bool (op : BoolOperator)
  | comparison (op : CmpOp)
  | keyword (value : Expr)
  | load

namespace Node

def ofExpr : Expr → List Node
  | .constant _ | .other _ => []
  | .name _ => [load]
  | .unaryOp op operand => [unary op, expr operand]
  | .binOp left op right => [expr left, operator op, expr right]
  | .boolOp op first others => bool op :: expr first :: others.map expr
  | .compare left op right chainOps chained =>
    expr left :: comparison op :: (List.range chained.length).map (fun i => comparison (chainOps i)) ++
      expr right :: chained.map expr
  | .ifExp test body orelse => [expr test, expr body, expr orelse]
  | .call func args keywords => called func :: args.map expr ++ keywords.map keyword

def children : Node → List Node
  | expression body => [expr body]
  | expr e | called e => ofExpr e
  | keyword value => [expr value]
  | operator _ | unary _ | bool _ | comparison _ | load => []

/-- `type(node).__name__` -/
def className : Node → String
  | expression _ => "Expression"
  | expr e | called e => match e with
    | .constant _ => "Constant"
    | .name _ => "Name"
    | .unaryOp .. => "UnaryOp"
    | .binOp .. => "BinOp"
    | .boolOp .. => "BoolOp"
    | .compare .. => "Compare"
    | .ifExp .. => "IfExp"
    | .call .. => "Call"
    | .other kind => match kind with
      | .namedExpr => "NamedExpr" | .lambda => "Lambda" | .dict => "Dict" | .set => "Set"
      | .listComp => "ListComp" | .setComp => "SetComp" | .dictComp => "DictComp"
      | .generatorExp => "GeneratorExp" | .await => "Await" | .yield => "Yield"
      | .yieldFrom => "YieldFrom" | .formattedValue => "FormattedValue" | .joinedStr => "JoinedStr"
      | .attribute => "Attribute" | .subscript => "Subscript" | .starred => "Starred"
      | .list => "List" | .tuple => "Tuple" | .slice => "Slice"
  | operator op => match op with
    | .add => "Add" | .sub => "Sub" | .mult => "Mult" | .matMult => "MatMult" | .div => "Div"
    | .mod => "Mod" | .pow => "Pow" | .lShift => "LShift" | .rShift => "RShift" | .bitOr => "BitOr"
    | .bitXor => "BitXor" | .bitAnd => "BitAnd" | .floorDiv => "FloorDiv"
  | unary op => match op with
    | .invert => "Invert" | .not => "Not" | .uAdd => "UAdd" | .uSub => "USub"
  | bool op => match op with
    | .and => "And" | .or => "Or"
  | comparison op => match op with
    | .eq => "Eq" | .notEq => "NotEq" | .lt => "Lt" | .ltE => "LtE" | .gt => "Gt" | .gtE => "GtE"
    | .is => "Is" | .isNot => "IsNot" | .isIn => "In" | .notIn => "NotIn"
  | keyword _ => "keyword"
  | load => "Load"

/-- A bound on the nodes below a node: each expression weighs enough for its operator. -/
def weight : Node → ℕ
  | expression body => 4 * body.nodes
  | expr e | called e => 4 * e.nodes - 1
  | keyword value => 4 * value.nodes
  | operator _ | unary _ | bool _ | comparison _ | load => 1

attribute [local simp] ofExpr weight

theorem weight_exprs (es : List Expr) :
    ((es.map expr).map weight).sum + es.length = 4 * Expr.nodesOf es := by
  induction es with
  | nil => rfl
  | cons e es ih =>
    have := Expr.nodes_eq e
    simp only [List.map_cons, List.sum_cons, weight, List.length_cons, Expr.nodesOf] at ih ⊢
    omega

theorem weight_keywords (es : List Expr) :
    ((es.map keyword).map weight).sum = 4 * Expr.nodesOf es := by
  induction es with
  | nil => rfl
  | cons e es ih =>
    simp only [List.map_cons, List.sum_cons, weight, Expr.nodesOf] at ih ⊢
    omega

theorem weight_comparisons (ops : ℕ → CmpOp) (is : List ℕ) :
    ((is.map fun i => comparison (ops i)).map weight).sum = is.length := by
  induction is with
  | nil => rfl
  | cons i is ih =>
    simp only [List.map_cons, List.sum_cons, weight, List.length_cons] at ih ⊢
    omega

theorem weight_ofExpr (e : Expr) : ((ofExpr e).map weight).sum < 4 * e.nodes - 1 := by
  cases e with
  | constant value => simp [Expr.nodes]
  | name id => simp [Expr.nodes]
  | unaryOp op operand =>
    have := Expr.nodes_eq operand
    simp only [ofExpr, Expr.nodes, List.map_cons, List.map_nil, List.sum_cons, List.sum_nil, weight]
    omega
  | binOp left op right =>
    simp only [ofExpr, Expr.nodes, List.map_cons, List.map_nil, List.sum_cons, List.sum_nil, weight]
    omega
  | boolOp op first others =>
    have := weight_exprs others
    simp only [ofExpr, Expr.nodes, List.map_cons, List.sum_cons, weight]
    omega
  | compare left op right chainOps chained =>
    have hexprs := weight_exprs chained
    have hops := weight_comparisons chainOps (List.range chained.length)
    have hleft := Expr.nodes_eq left
    have hright := Expr.nodes_eq right
    rw [List.length_range] at hops
    simp only [ofExpr, Expr.nodes, List.map_cons, List.map_append, List.sum_cons, List.sum_append,
      List.cons_append, weight] at hexprs hops ⊢
    omega
  | ifExp test body orelse =>
    simp only [ofExpr, Expr.nodes, List.map_cons, List.map_nil, List.sum_cons, List.sum_nil, weight]
    omega
  | call func args keywords =>
    have hargs := weight_exprs args
    have hkeywords := weight_keywords keywords
    simp only [ofExpr, Expr.nodes, List.map_cons, List.map_append, List.sum_cons, List.sum_append,
      List.cons_append, weight] at hargs hkeywords ⊢
    omega
  | other kind => simp [Expr.nodes]

def tree : FiniteTree Node where
  children := children
  weight := weight
  weight_lt x := by
    cases x with
    | expression body =>
      have := Expr.nodes_eq body
      simp only [children, weight, List.map_cons, List.map_nil, List.sum_cons, List.sum_nil]
      omega
    | keyword value =>
      have := Expr.nodes_eq value
      simp only [children, weight, List.map_cons, List.map_nil, List.sum_cons, List.sum_nil]
      omega
    | expr e => exact weight_ofExpr e
    | called e => exact weight_ofExpr e
    | _ => exact Nat.one_pos

end Node

/-! ## The allow-lists -/

def comparisons : List String := ["Eq", "NotEq", "Lt", "LtE", "Gt", "GtE"]

def strictNodes : List String :=
  ["Expression", "BinOp", "UnaryOp", "Compare", "Name", "Load", "Constant", "Call", "Add", "Sub",
    "Mult", "Div", "Pow", "USub"] ++ comparisons

def lenientNodes : List String :=
  strictNodes ++ ["BoolOp", "IfExp", "Mod", "UAdd", "Not", "And", "Or"]

def strictFunctions : List String :=
  ["log", "exp", "sqrt", "abs", "min", "max", "clip", "where", "log1p", "expm1"]

def lenientFunctions : List String := strictFunctions ++ ["ceil", "coalesce", "floor", "round"]

/-- `_ARITY.get`: the exact number of arguments, where there is one. -/
def arity (id : String) : Option ℕ :=
  if id = "where" ∨ id = "clip" then some 3
  else if id ∈ ["log1p", "expm1", "abs", "round", "floor", "ceil", "log", "exp", "sqrt"] then some 1
  else none

def allowedNodes (profile : GrammarProfile) : List String :=
  if profile.strict then strictNodes else lenientNodes

def functions (profile : GrammarProfile) : List String :=
  if profile.strict then strictFunctions else lenientFunctions

/-- Why an expression is refused. A message names the functions of the profile as well. -/
inductive ExpressionError
  | notPermitted (node : String) (profile : GrammarProfile)
  | plainCalls
  | notAFunction (id : String) (profile : GrammarProfile)
  | keywordArguments
  | wrongArity (id : String) (expected got : ℕ)
  | numericLiterals (profile : GrammarProfile)
  | chained
  | bareComparison (profile : GrammarProfile)
  | whereCondition
  | unbound (id : String)
  | tooManyNodes (nodes limit : ℕ)
  | tooDeep (depth limit : ℕ)
  | noArgument (id : String)
  | notTranslatable (node : String)
  | unknownFunction (id : String)
  | notAnOperator (node : String)
  | notAComparison (node : String)
  deriving DecidableEq

/-- What a parse raises: a refusal of the grammar, a missing list of symbols, or the language's error
for a text that is no expression. -/
inductive ParseError
  | expression (error : ExpressionError)
  | needsSymbols
  | syntaxError
  deriving DecidableEq

structure ExpressionLimits where
  maxNodes : ℕ
  maxDepth : ℕ

def defaultLimits : ExpressionLimits := ⟨200, 20⟩

/-! ## The checks -/

section Checks

variable (profile : GrammarProfile)

/-- The check of a call: a plain name of the profile, no keyword, and the arguments that it takes. -/
def checkCall (func : Expr) (args keywords : List Expr) : Except ExpressionError Unit :=
  match func with
  | .name id => do
    ensure (id ∈ functions profile) (.notAFunction id profile)
    ensure (keywords.isEmpty = true) .keywordArguments
    ensure (∀ n ∈ arity id, args.length = n) (.wrongArity id ((arity id).getD 0) args.length)
  | _ => .error .plainCalls

def checkNode (node : Node) : Except ExpressionError Unit := do
  ensure (node.className ∈ allowedNodes profile) (.notPermitted node.className profile)
  match node with
  | .expr (.call func args keywords) | .called (.call func args keywords) =>
    checkCall profile func args keywords
  | _ => return ⟨⟩

def checkNodes (body : Expr) : Except ExpressionError Unit :=
  (Node.tree.walk (.expression body)).forM (checkNode profile)

def Constant.Numeric : Constant → Prop
  | .int _ | .float _ => True
  | _ => False

instance : DecidablePred Constant.Numeric := fun c => by
  cases c <;> unfold Constant.Numeric <;> infer_instance

def Expr.IsCompare : Expr → Prop
  | .compare .. => True
  | _ => False

instance : DecidablePred Expr.IsCompare := fun e => by
  cases e <;> unfold Expr.IsCompare <;> infer_instance

def Expr.IsName (text : String) : Expr → Prop
  | .name id => id = text
  | _ => False

instance (text : String) : DecidablePred (Expr.IsName text) := fun e => by
  cases e <;> unfold Expr.IsName <;> infer_instance

mutual

/-- Where a comparison may stand, and the literals. -/
def checkStructure : Expr → Bool → Except ExpressionError Unit
  | .constant value, _ => ensure (profile.strict = true → value.Numeric) (.numericLiterals profile)
  | .name _, _ | .other _, _ => return ⟨⟩
  | .compare left _ right _ chained, whereCondition => do
    ensure (chained.isEmpty = true) .chained
    ensure (profile.strict = true → whereCondition = true) (.bareComparison profile)
    checkStructure left false
    checkStructure right false
    checkStructures chained
  | .call func [condition, a, b] keywords, _ =>
    if func.IsName "where" then do
      ensure condition.IsCompare .whereCondition
      checkStructure condition true
      checkStructure a false
      checkStructure b false
    else do
      checkStructure func false
      checkStructure condition false
      checkStructure a false
      checkStructure b false
      checkStructures keywords
  | .call func args keywords, _ => do
    checkStructure func false
    checkStructures args
    checkStructures keywords
  | .unaryOp _ operand, _ => checkStructure operand false
  | .binOp left _ right, _ => do
    checkStructure left false
    checkStructure right false
  | .boolOp _ first others, _ => do
    checkStructure first false
    checkStructures others
  | .ifExp test body orelse, _ => do
    checkStructure test false
    checkStructure body false
    checkStructure orelse false

def checkStructures : List Expr → Except ExpressionError Unit
  | [] => return ⟨⟩
  | e :: es => do
    checkStructure e false
    checkStructures es

end

theorem checkStructure_name {id : String} {whereCondition : Bool} :
    checkStructure profile (.name id) whereCondition = .ok ⟨⟩ := by
  rw [checkStructure]
  rfl

theorem checkStructures_nil : checkStructures profile [] = .ok ⟨⟩ := by
  rw [checkStructures]
  rfl

def checkSymbol (symbols : List String) : Node → Except ExpressionError Unit
  | .expr (.name id) => ensure (id ∈ symbols) (.unbound id)
  | _ => return ⟨⟩

def checkSymbols (symbols : List String) (body : Expr) : Except ExpressionError Unit :=
  (Node.tree.walk (.expression body)).forM (checkSymbol symbols)

def checkLimits (limits : ExpressionLimits) (body : Expr) : Except ExpressionError Unit := do
  let (nodes, depth) := Expr.tree.measure body
  ensure (nodes ≤ limits.maxNodes) (.tooManyNodes nodes limits.maxNodes)
  ensure (depth ≤ limits.maxDepth) (.tooDeep depth limits.maxDepth)

/-- `parse_expression`, over the language's own parser. -/
def parseExpression (astParse : String → Option Expr) (expression : String)
    (symbols : Option (List String)) (limits : ExpressionLimits) : Except ParseError Expr := do
  ensure (profile.strict = true → symbols.isSome = true) .needsSymbols
  let body ← require (astParse expression) .syntaxError
  (checkNodes profile body).mapError .expression
  (checkLimits limits body).mapError .expression
  (checkStructure profile body false).mapError .expression
  (symbols.elim (.ok ⟨⟩) fun symbols => checkSymbols symbols body).mapError .expression
  return body

end Checks

end GiPricing.Expressions
