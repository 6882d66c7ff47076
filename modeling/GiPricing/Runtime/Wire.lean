import GiPricing.Runtime.Engine
import GiPricing.Runtime.Texts

/-! # Translating an algorithm to the wire

The interior steps, in a stable topological order, become one chain of nodes, closed by a
node that reads every reported name exactly. The diagnostic chain carries guards after its
tables and lookups.
-/

namespace GiPricing

open Dataflow

/-! ## Pinned tables -/

inductive KeyType | int | string | date | bool
  deriving DecidableEq, Repr

structure RateTableKey where
  name : String
  type : KeyType
  deriving DecidableEq, Repr

structure RateTableValue where
  name : String
  min : Option Bound := none
  max : Option Bound := none
  deriving DecidableEq, Repr

/-- A stored rate table. A row maps the key columns and the value column to texts. -/
structure RateTableVersion where
  keys : List RateTableKey
  value : RateTableValue
  rows : List (Dict String)
  defaultRow : Option (Dict String) := none
  deriving DecidableEq

/-- An effective-dated row, in force from its first date up to and without its last. -/
structure ReferenceRow where
  key : String
  payload : Dict Value
  effectiveFrom : Date
  effectiveTo : Option Date := none
  deriving DecidableEq

structure Payloads where
  rateTable : ArtifactRef → Option RateTableVersion
  referenceRows : ArtifactRef → Option (List ReferenceRow)

inductive WireFailure | notImplemented | keyError | graphCycle
  deriving DecidableEq, Repr

/-! ## Decision tables -/

/-- `_quote`: the literal of a key cell. -/
def quote (value : String) : KeyType → String
  | .string | .date => singleQuoted value
  | .int | .bool => value

/-- The engine's own parser reads a decimal text as a number. -/
def cellParses (engine : Engine) (raw : String) : Bool :=
  (Decimal.parse raw).isSome && match engine.evaluate raw fun _ => none with
    | some (.int _) | some (.float _) => true
    | _ => false

def sentinelLiteral : String := jsonText unparseableCell

def RateTableVersion.rule (engine : Engine) (t : RateTableVersion) (row : Dict String) :
    Except WireFailure WireRule := do
  let cells ← t.keys.mapM fun k => match row.get? k.name with
    | some value => .ok (quote value k.type)
    | none => .error .keyError
  match row.get? t.value.name with
  | some cell => return ⟨cells, if cellParses engine cell then cell else sentinelLiteral⟩
  | none => .error .keyError

/-- The field each key column is matched against: its key expression, or the key's own name. -/
def RateTableVersion.fields (t : RateTableVersion) (keyExpr : List String) : List String :=
  t.keys.zipIdx.map fun (k, i) => keyExpr[i]?.getD k.name

/-- `_as_at_window`: the period of a row as a test of the `as_at` value. -/
def ReferenceRow.window (row : ReferenceRow) : String :=
  "date($) >= date('" ++ row.effectiveFrom.isoformat ++ "')" ++
    match row.effectiveTo with
    | some upper => " and date($) < date('" ++ upper.isoformat ++ "')"
    | none => ""

def ReferenceRow.rule (output : String) (row : ReferenceRow) : Option WireRule :=
  (row.payload.get? output).map fun value =>
    ⟨[quote row.key .string, row.window], jsonText value.str⟩

namespace RatingStep

variable (engine : Engine) (payloads : Payloads) (s : RatingStep)

def outputField : String := s.produces.head?.getD ""

def tableContent (ref : ArtifactRef) (keyExpr : List String) : Except WireFailure WireContent :=
  match payloads.rateTable ref with
  | none => .ok (.decisionTable [] s.outputField [])
  | some t => (t.rows.mapM (t.rule engine)).map fun rules =>
      .decisionTable (t.fields keyExpr) s.outputField rules

def lookupContent (ref : ArtifactRef) (keyExpr : List String) (asAt : String) : WireContent :=
  .decisionTable [keyExpr.head?.getD "key", asAt] s.outputField
    (((payloads.referenceRows ref).getD []).filterMap (ReferenceRow.rule s.outputField))

/-! ## Constraints -/

/-- The clamped value of a name: its minimum is applied first. -/
def clampText (name : String) (minimum maximum : Option String) : String :=
  let low := match minimum with
    | some m => "(" ++ name ++ " < (" ++ m ++ ") ? (" ++ m ++ ") : " ++ name ++ ")"
    | none => name
  match maximum with
  | some m => "(" ++ low ++ " > (" ++ m ++ ") ? (" ++ m ++ ") : " ++ low ++ ")"
  | none => low

def exactText (text : String) : String := "string(" ++ text ++ ")"

/-- The exact reads of a clamp and the clamped value. -/
def clampExpressions (source produced : String) (bounds : Dict String) : List WireExpression :=
  [⟨beforeKey s.stepId, exactText source⟩] ++
    ((bounds.get? "min").map fun m => ⟨minKey s.stepId, exactText m⟩).toList ++
    ((bounds.get? "max").map fun m => ⟨maxKey s.stepId, exactText m⟩).toList ++
    [⟨produced, clampText source (bounds.get? "min") (bounds.get? "max")⟩]

def constraintContent (condition : String) (onViolation : OnViolation)
    (clampBounds : Option (Dict String)) : Except WireFailure WireContent :=
  let violated : WireExpression := ⟨violatedKey s.stepId, "!(" ++ condition ++ ")"⟩
  match onViolation, s.produces with
  | .clamp, produced :: _ =>
    match s.consumes.head?, clampBounds with
    | some source, some bounds =>
      if bounds.entries = [] then .error .notImplemented
      else .ok (.expressions (violated :: s.clampExpressions source produced bounds))
    | _, _ => .error .notImplemented
  | _, _ => .ok (.expressions [violated])

/-! ## Steps -/

/-- What the node of an interior step computes. -/
def content : Except WireFailure WireContent := match s.kind with
  | .expression text _ => match s.produces with
    | [name] => .ok (.expressions [⟨name, text⟩])
    | _ => .error .notImplemented
  | .table ref keyExpr _ .none => s.tableContent engine payloads ref keyExpr
  | .table _ _ _ .linear => .error .notImplemented
  | .lookup ref keyExpr asAt _ => .ok (s.lookupContent payloads ref keyExpr asAt)
  | .constraint condition onViolation bounds _ => s.constraintContent condition onViolation bounds
  | .modelCall .. => .ok .modelCall
  | .input .. | .output .. => .ok (.expressions [])

/-- The produced names of a step a guard watches, and whether a miss is an error. -/
def guard? : Option (List String × Bool) := match s.kind with
  | .table _ _ onMiss _ => some (s.produces, onMiss = .error)
  | .lookup _ _ _ onMiss => some (s.produces, onMiss = .error)
  | _ => none

def isTable : Bool := match s.kind with | .table .. => true | _ => false

end RatingStep

def cellGuardPrefix : String := "__cell_guard__"
def missGuardPrefix : String := "__miss_guard__"

/-- `_guard_node`: fail on the first of the names that passes the test. -/
def guardNode (stepId guardPrefix : String) (names : List String) (test : String) : WireNode :=
  ⟨guardPrefix ++ stepId, .expressions (names.map fun name =>
    ⟨guardPrefix ++ stepId ++ "__" ++ name, name ++ test ++ " ? 1 * null : true"⟩)⟩

/-- The guards after a step: of an unparseable cell, then of a miss. -/
def RatingStep.guardNodes (s : RatingStep) : Option (List String × Bool) → List WireNode
  | none => []
  | some (names, missIsError) =>
    (if s.isTable then [guardNode s.stepId cellGuardPrefix names (" == " ++ sentinelLiteral)]
      else []) ++
    if missIsError then [guardNode s.stepId missGuardPrefix names " == null"] else []

/-! ## The chain -/

/-- The interior steps in a stable topological order; a cycle is refused. -/
def dependencyOrder (interior : List RatingStep) : Except WireFailure (List RatingStep) :=
  let order := Kahn.order (Kahn.heap id) (dependenciesAt interior) (List.range interior.length)
  if order.length = interior.length then .ok (order.filterMap (interior[·]?))
  else .error .graphCycle

def exactReadNames (steps : List RatingStep) : List String :=
  ((steps.filter RatingStep.isOutput).filterMap fun s => s.consumes.head?).eraseDups

def exactReadNode (names : List String) : WireNode :=
  ⟨"__exact_reads", .expressions (names.map fun name => ⟨exactKey name, RatingStep.exactText name⟩)⟩

/-- The nodes between the request and the response, in the order of the one path that joins them. -/
def toWire (engine : Engine) (payloads : Payloads)
    (guards : RatingStep → Option (List String × Bool)) (steps : List RatingStep) :
    Except WireFailure (List WireNode) := do
  let interior ← dependencyOrder (steps.filter RatingStep.isInterior)
  let nodes ← interior.mapM fun s => (s.content engine payloads).map fun content =>
    (⟨s.stepId, content⟩ : WireNode) :: s.guardNodes (guards s)
  let names := exactReadNames steps
  return nodes.flatten ++ if names = [] then [] else [exactReadNode names]

/-! ## The evaluation of one purpose -/

/-- A loaded algorithm: its live chain, and the diagnostic chain of the same steps. -/
structure PurposeEvaluation where
  algorithm : RatingAlgorithm
  chain : List WireNode
  guarded : List WireNode

def loadEvaluation (engine : Engine) (payloads : Payloads) (algorithm : RatingAlgorithm) :
    Except WireFailure PurposeEvaluation := do
  let chain ← toWire engine payloads (fun _ => none) algorithm.steps
  let guarded ← toWire engine payloads RatingStep.guard? algorithm.steps
  return ⟨algorithm, chain, guarded⟩

def afterPrefix (start text : String) : Option String :=
  if start.toList.isPrefixOf text.toList then
    some (String.ofList (text.toList.drop start.length)) else none

namespace PurposeEvaluation

variable (engine : Engine) (models : Models) (ev : PurposeEvaluation)

def reportedStep (stepId : Option String) : Option String :=
  stepId.bind fun sid => (ev.algorithm.steps.find? fun s => s.stepId = sid).map RatingStep.stepId

/-- `_reraise_engine_failure`: the guard the diagnostic run fails at says what failed; any other
failure is reported at the node the live run failed at. -/
def engineRefusal (c : Context) : Refusal :=
  let guard := failingNode engine models (routed ev.algorithm.steps) ev.guarded c
  let live := failingNode engine models (routed ev.algorithm.steps) ev.chain c
  -- an empty step id counts as none
  let at? := fun sid => ev.reportedStep (if sid = "" then live else some sid)
  match guard.bind (afterPrefix cellGuardPrefix), guard.bind (afterPrefix missGuardPrefix) with
  | some sid, _ => .cellUnparseable ((at? sid).getD "None")
  | none, some sid =>
    if (ev.algorithm.steps.find? fun s => s.stepId = sid).any RatingStep.isTable then
      .tableMiss ((at? sid).getD "None")
    else .lookupMiss ((at? sid).getD "None")
  | none, none => .evaluationFailed (ev.reportedStep live)

/-- The engine's result, or the refusal of a failed evaluation. -/
def evaluate (c : Context) : Except Raised Context :=
  match evaluateChain engine models (routed ev.algorithm.steps) ev.chain c with
  | some result => .ok result
  | none => .error (.coded (ev.engineRefusal engine models c))

end PurposeEvaluation

end GiPricing
