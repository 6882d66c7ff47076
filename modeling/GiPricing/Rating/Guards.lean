import GiPricing.Lazy.Guards
import GiPricing.Rating.Invariants
import GiPricing.Rating.Rename

/-! # Checks of authored texts

The checks that run over every authored text of an algorithm at save time, the grammar in which the
tokens of a text spell an expression, and what the division guard check says of evaluating it.
-/

namespace GiPricing

/-! ## The checks of one text -/

/-- `needle in text` -/
def occurs (needle : String) (text : List Char) : Bool := decide (needle.toList <:+: text)

def nonDeterministic : List String := ["now(", "random(", "rand(", "today(", "clock("]

/-- `text.lower()`, as far as the markers tell: of the characters outside ASCII only the Kelvin sign
has a letter of a marker for its lower case. -/
def lowered (text : List Char) : List Char :=
  text.map fun c => if c.toNat = 0x212A then 'k' else c.toLower

/-- `_check_determinism`, as the code of the issue. -/
def checkDeterminism (text : String) : Option String :=
  if nonDeterministic.any (occurs · (lowered text.toList)) then some "EXPRESSION_NON_DETERMINISTIC"
  else none

def guardMarkers : List String := ["!= 0", "> 0", "== 0", "< 0", "if(", "guard"]

def marked (text : String) : Bool := guardMarkers.any (occurs · text.toList)

/-- `_check_division_guards` -/
def checkDivisionGuards (text : String) : Option String :=
  if occurs "/" text.toList && !marked text then some "EXPRESSION_UNGUARDED_DIVISION" else none

def scaleCap : ℕ := 28

/-- The fractions of the matches of `\b\d+\.\d+\b`, with fuel for every character. `prior` is the
character before the text. -/
def fractionsFrom : ℕ → Option Char → List Char → List (List Char)
  | 0, _, _ => []
  | _, _, [] => []
  | n + 1, prior, c :: t =>
    match (c :: t).dropWhile isDigit with
    | '.' :: r =>
      let fraction := r.takeWhile isDigit
      let rest := r.dropWhile isDigit
      if isDigit c && !prior.any isWordChar && !fraction.isEmpty && !rest.head?.any isWordChar then
        fraction :: fractionsFrom n fraction.getLast? rest
      else fractionsFrom n (some c) t
    | _ => fractionsFrom n (some c) t

/-- `_check_scale_cap` -/
def checkScaleCap (text : String) : Option String :=
  if (fractionsFrom text.toList.length none text.toList).any fun f => scaleCap < f.length then
    some "EXPRESSION_SCALE_OVERFLOW"
  else none

/-- `_check_allow_list` -/
def checkAllowListIssue (text : String) : Option String :=
  (checkAllowList text).map fun _ => "EXPRESSION_INVALID_VOCABULARY"

/-- `_check_vocabulary`; `compiles` is `zen.compile_expression`. -/
def checkVocabulary (compiles : String → Bool) (text : String) : Option String :=
  if compiles text then none else some "EXPRESSION_INVALID_VOCABULARY"

/-- `STRING_CHECKS` -/
def stringChecks (compiles : String → Bool) : List (String → Option String) :=
  [checkDeterminism, checkDivisionGuards, checkScaleCap, checkAllowListIssue,
    checkVocabulary compiles]

/-! ## The authored texts of an algorithm -/

/-- One authored text of a step, with its field: `expr`, `clamp_bounds.min`, `key_expr[0]`. -/
structure AuthoredString where
  step_id : String
  field : String
  text : String
  deriving DecidableEq, Repr

def listField (step_id field : String) (texts : List String) : List AuthoredString :=
  texts.zipIdx.map fun p => ⟨step_id, field ++ "[" ++ toString p.2 ++ "]", p.1⟩

def dictField (step_id field : String) (d : Dict String) : List AuthoredString :=
  d.entries.map fun p => ⟨step_id, field ++ "." ++ p.1, p.2⟩

def RatingStep.authoredStrings (s : RatingStep) : List AuthoredString := match s.kind with
  | .lookup _ key asAt _ => listField s.stepId "key_expr" key ++ [⟨s.stepId, "as_at", asAt⟩]
  | .table _ key _ _ => listField s.stepId "key_expr" key
  | .expression e _ => [⟨s.stepId, "expr", e⟩]
  | .constraint c _ bounds _ =>
    ⟨s.stepId, "condition", c⟩ :: (bounds.map (dictField s.stepId "clamp_bounds")).getD []
  | _ => []

/-- `authored_expression_fields` -/
def authoredExpressionFields (algo : RatingAlgorithmDraft) : List AuthoredString :=
  algo.steps.flatMap RatingStep.authoredStrings

/-- The first part of `validate_algorithm`: the code of every issue of a text, with the text. -/
def stringIssues (compiles : String → Bool) (algo : RatingAlgorithmDraft) :
    List (AuthoredString × String) :=
  (authoredExpressionFields algo).flatMap fun authored =>
    (stringChecks compiles).filterMap fun check =>
      (check authored.text).map fun code => (authored, code)

/-! ## The expressions that texts spell -/

inductive RatingFunction | min | max | abs | number
  deriving DecidableEq, Repr

abbrev RatingExpr := Lazy.Expr ℚ (List Char) String RatingFunction

/-- The value of a number token. -/
def numberValue (t : List Char) : ℚ :=
  let whole := t.takeWhile isDigit
  let fraction := (t.dropWhile isDigit).drop 1
  (digitsValue (whole ++ fraction) : ℚ) / 10 ^ fraction.length

def unarySymbol : Lazy.Unary → String
  | .plus => "+"
  | .minus => "-"
  | .not => "not"

def arithmeticSymbol : Lazy.Arithmetic → String
  | .add => "+"
  | .sub => "-"
  | .mul => "*"
  | .div => "/"

def comparisonSymbol : Lazy.Comparison → String
  | .eq => "=="
  | .ne => "!="
  | .lt => "<"
  | .le => "<="
  | .gt => ">"
  | .ge => ">="

def connectiveSymbol : Lazy.Connective → String
  | .and => "and"
  | .or => "or"
  | .coalesce => "??"

structure Levels where
  unary : Lazy.Unary → ℕ
  arithmetic : Lazy.Arithmetic → ℕ
  comparison : Lazy.Comparison → ℕ
  connective : Lazy.Connective → ℕ

/-- The tokens spell the expressions of a list, with commas between them: a single expression at its
level, or the items of an array. -/
inductive Spells (levels : Levels) : ℕ → List RatingExpr → List (List Char) → Prop
  | number {t : List Char} (level : ℕ) : NumberText t →
      Spells levels level [.constant (.number (numberValue t))] [t]
  | text {w : List Char} (level : ℕ) : StringText ('\'' :: w ++ ['\'']) →
      Spells levels level [.constant (.text w)] ['\'' :: w ++ ['\'']]
  | yes (level : ℕ) : Spells levels level [.constant (.truth true)] ["true".toList]
  | no (level : ℕ) : Spells levels level [.constant (.truth false)] ["false".toList]
  | null (level : ℕ) : Spells levels level [.constant .null] ["null".toList]
  | name {t : List Char} (level : ℕ) : NameText t → String.ofList t ∉ keepWords →
      Spells levels level [.name (String.ofList t)] [t]
  | group {e : RatingExpr} {ts : List (List Char)} (level : ℕ) : Spells levels 0 [e] ts →
      Spells levels level [e] (['('] :: ts ++ [[')']])
  | unary {op : Lazy.Unary} {e : RatingExpr} {ts : List (List Char)} {level : ℕ} :
      level ≤ levels.unary op → Spells levels (levels.unary op) [e] ts →
      Spells levels level [.unary op e] ((unarySymbol op).toList :: ts)
  | arithmetic {op : Lazy.Arithmetic} {l r : RatingExpr} {ts us : List (List Char)} {level : ℕ} :
      level ≤ levels.arithmetic op → Spells levels (levels.arithmetic op) [l] ts →
      Spells levels (levels.arithmetic op + 1) [r] us →
      Spells levels level [.arithmetic op l r] (ts ++ (arithmeticSymbol op).toList :: us)
  | comparison {op : Lazy.Comparison} {l r : RatingExpr} {ts us : List (List Char)} {level : ℕ} :
      level ≤ levels.comparison op → Spells levels (levels.comparison op) [l] ts →
      Spells levels (levels.comparison op + 1) [r] us →
      Spells levels level [.comparison op l r] (ts ++ (comparisonSymbol op).toList :: us)
  | connective {op : Lazy.Connective} {l r : RatingExpr} {ts us : List (List Char)} {level : ℕ} :
      level ≤ levels.connective op → Spells levels (levels.connective op) [l] ts →
      Spells levels (levels.connective op + 1) [r] us →
      Spells levels level [.connective op l r] (ts ++ (connectiveSymbol op).toList :: us)
  | cond {t y n : RatingExpr} {ts us vs : List (List Char)} : Spells levels 1 [t] ts →
      Spells levels 0 [y] us → Spells levels 0 [n] vs →
      Spells levels 0 [.cond t y n] (ts ++ ['?'] :: us ++ [':'] :: vs)
  | min {args : List RatingExpr} {ts : List (List Char)} (level : ℕ) : Spells levels 0 args ts →
      Spells levels level [.call .min args] ("min".toList :: ['('] :: ['['] :: ts ++ [[']'], [')']])
  | max {args : List RatingExpr} {ts : List (List Char)} (level : ℕ) : Spells levels 0 args ts →
      Spells levels level [.call .max args] ("max".toList :: ['('] :: ['['] :: ts ++ [[']'], [')']])
  | abs {e : RatingExpr} {ts : List (List Char)} (level : ℕ) : Spells levels 0 [e] ts →
      Spells levels level [.call .abs [e]] ("abs".toList :: ['('] :: ts ++ [[')']])
  | convert {e : RatingExpr} {ts : List (List Char)} (level : ℕ) : Spells levels 0 [e] ts →
      Spells levels level [.call .number [e]] ("number".toList :: ['('] :: ts ++ [[')']])
  | nil : Spells levels 0 [] []
  | cons {e e' : RatingExpr} {es : List RatingExpr} {ts us : List (List Char)} :
      Spells levels 0 [e] ts → Spells levels 0 (e' :: es) us →
      Spells levels 0 (e :: e' :: es) (ts ++ [','] :: us)

variable {levels : Levels}

theorem guardedAll_singleton {e : RatingExpr} {known : List RatingExpr} :
    Lazy.GuardedAll known [e] ↔ Lazy.Guarded known e := by
  simp only [Lazy.GuardedAll, and_true]

/-- Expressions that are spelled without a `/` have no division to guard, by induction on how they
are spelled. -/
theorem Spells.guarded {level : ℕ} {es : List RatingExpr} {ts : List (List Char)}
    (h : Spells levels level es ts) (hslash : ['/'] ∉ ts) :
    ∀ known, Lazy.GuardedAll known es := by
  induction h with
  | number | text | yes | no | null | name | nil =>
    intro known
    simp only [Lazy.GuardedAll, Lazy.Guarded, and_true]
  | group level _ ih =>
    apply ih
    intro h
    exact hslash (by simp [h])
  | unary _ _ ih =>
    intro known
    have he := ih (fun h => hslash (List.mem_cons_of_mem _ h)) known
    rw [guardedAll_singleton] at he ⊢
    rwa [Lazy.Guarded]
  | @arithmetic op l r ts us level _ _ _ ihl ihr =>
    intro known
    have hop : op ≠ .div := by
      rintro rfl
      exact hslash (List.mem_append_right ts List.mem_cons_self)
    have hl := ihl (fun h => hslash (List.mem_append_left _ h)) known
    have hr := ihr (fun h => hslash (List.mem_append_right ts (List.mem_cons_of_mem _ h))) known
    rw [guardedAll_singleton] at hl hr ⊢
    rw [Lazy.Guarded]
    exact ⟨hl, hr, fun hdiv => absurd hdiv hop⟩
  | @comparison op l r ts us level _ _ _ ihl ihr =>
    intro known
    have hl := ihl (fun h => hslash (List.mem_append_left _ h)) known
    have hr := ihr (fun h => hslash (List.mem_append_right ts (List.mem_cons_of_mem _ h))) known
    rw [guardedAll_singleton] at hl hr ⊢
    rw [Lazy.Guarded]
    exact ⟨hl, hr⟩
  | @connective op l r ts us level _ _ _ ihl ihr =>
    intro known
    have hl := ihl (fun h => hslash (List.mem_append_left _ h)) known
    have hr := ihr (fun h => hslash (List.mem_append_right ts (List.mem_cons_of_mem _ h)))
      (Lazy.passed op l ++ known)
    rw [guardedAll_singleton] at hl hr ⊢
    rw [Lazy.Guarded]
    exact ⟨hl, hr⟩
  | @cond t y n ts us vs _ _ _ iht ihy ihn =>
    intro known
    have ht := iht (fun h => hslash (by simp [h])) known
    have hy := ihy (fun h => hslash (by simp [h])) (Lazy.nonzeroIf true t ++ known)
    have hn := ihn (fun h => hslash (by simp [h])) (Lazy.nonzeroIf false t ++ known)
    rw [guardedAll_singleton] at ht hy hn ⊢
    rw [Lazy.Guarded]
    exact ⟨ht, hy, hn⟩
  | min level _ ih | max level _ ih | abs level _ ih | convert level _ ih =>
    intro known
    rw [guardedAll_singleton, Lazy.Guarded]
    exact ih (fun h => hslash (by simp [h])) known
  | @cons e e' es ts us _ _ ihe ihes =>
    intro known
    have he := ihe (fun h => hslash (List.mem_append_left _ h)) known
    have hes := ihes (fun h => hslash (List.mem_append_right ts (List.mem_cons_of_mem _ h))) known
    rw [guardedAll_singleton] at he
    rw [Lazy.GuardedAll]
    exact ⟨he, hes⟩

/-! ## The division guard check -/

theorem checkDivisionGuards_eq_none {text : String} : checkDivisionGuards text = none ↔
    (occurs "/" text.toList = true → marked text = true) := by
  unfold checkDivisionGuards
  split_ifs with h
  · rw [Bool.and_eq_true, Bool.not_eq_true'] at h
    simp [h]
  · rw [Bool.and_eq_true, Bool.not_eq_true', not_and, Bool.not_eq_false] at h
    simpa using h

theorem mem_text_of_token {text : String} (haccepted : checkAllowList text = none) {t : List Char}
    (ht : t ∈ tokens text) : ∀ c ∈ t, c ∈ text.toList := by
  obtain ⟨ps, hscan⟩ := scanned_of_accepted haccepted
  have htext := (scan_eq_ok.mp hscan).text
  intro c hc
  rw [htext]
  exact List.mem_flatMap.mpr ⟨.token t, (mem_tokens hscan).mp ht, hc⟩

theorem no_slash_of_accepted {text : String} (hallowed : checkAllowList text = none)
    (hguards : checkDivisionGuards text = none) (hmarked : marked text = false) :
    ['/'] ∉ tokens text := by
  intro hmem
  have hslash : '/' ∈ text.toList := mem_text_of_token hallowed hmem '/' List.mem_cons_self
  have hoccurs : occurs "/" text.toList = true := by
    obtain ⟨s, t, hst⟩ := List.append_of_mem hslash
    exact decide_eq_true ⟨s, t, by simp [hst]⟩
  exact absurd (checkDivisionGuards_eq_none.mp hguards hoccurs) (by simp [hmarked])

theorem not_mem_stringIssues {compiles : String → Bool} {algo : RatingAlgorithmDraft}
    {authored : AuthoredString} (hauthored : authored ∈ authoredExpressionFields algo) :
    (∀ code, (authored, code) ∉ stringIssues compiles algo) ↔
      ∀ check ∈ stringChecks compiles, check authored.text = none := by
  constructor
  · intro h check hcheck
    cases hfound : check authored.text with
    | none => rfl
    | some code =>
      refine absurd ?_ (h code)
      exact List.mem_flatMap.mpr ⟨authored, hauthored,
        List.mem_filterMap.mpr ⟨check, hcheck, by rw [hfound]; rfl⟩⟩
  · intro h code hmem
    obtain ⟨a, -, ha⟩ := List.mem_flatMap.mp hmem
    obtain ⟨check, hcheck, hfound⟩ := List.mem_filterMap.mp ha
    obtain ⟨c, hc, heq⟩ := Option.map_eq_some_iff.mp hfound
    obtain rfl := (Prod.mk.inj heq).1
    rw [h check hcheck] at hc
    cases hc

/-- An authored text for which validation reports nothing never divides by zero where it carries no
guard construct, and where every division stands under conditions that rule out that its divisor is
zero; whatever values the names have, and whatever the engine makes of operands that are no
numbers. -/
theorem divisionGuards_safe (compiles : String → Bool) (algo : RatingAlgorithm)
    (authored : AuthoredString)
    (hauthored : authored ∈ authoredExpressionFields algo.toRatingAlgorithmDraft)
    (haccepted : ∀ code, (authored, code) ∉ stringIssues compiles algo.toRatingAlgorithmDraft)
    (levels : Levels) (e : RatingExpr) (hspells : Spells levels 0 [e] (tokens authored.text))
    (hguards : marked authored.text = false ∨ Lazy.Guarded [] e)
    (engine : Lazy.Engine ℚ (List Char) RatingFunction)
    (env : String → Lazy.Value ℚ (List Char)) :
    Lazy.Safe engine env e := by
  have hguarded : Lazy.Guarded [] e := by
    obtain hmarked | hguarded := hguards
    · have hchecks := (not_mem_stringIssues hauthored).mp haccepted
      have hallowed : checkAllowList authored.text = none := by
        have h := hchecks checkAllowListIssue (by simp [stringChecks])
        exact Option.map_eq_none_iff.mp h
      have hdivision := hchecks checkDivisionGuards (by simp [stringChecks])
      exact guardedAll_singleton.mp
        (hspells.guarded (no_slash_of_accepted hallowed hdivision hmarked) [])
    · exact hguarded
  apply hguarded.safe
  rintro d ⟨⟩

/-! ## Two ratios -/

/-- One ratio is guarded by its divisor and the other by another name. -/
def ratios : RatingAlgorithm where
  slug := "motor"
  version := 1
  inputContract := [{ name := "x", type := .decimal }, { name := "y", type := .decimal }]
  outputs := [{ name := "ratio", type := "decimal" }]
  steps := [
    { stepId := "in_x", consumes := [], produces := ["x"], kind := .input "x" .error },
    { stepId := "in_y", consumes := [], produces := ["y"], kind := .input "y" .error },
    { stepId := "own", consumes := ["x"], produces := ["own"],
      kind := .expression "x > 0 ? 1 / x : 0" "decimal" },
    { stepId := "other", consumes := ["x", "y", "own"], produces := ["ratio"],
      kind := .expression "y > 0 ? 1 / x : own" "decimal" },
    { stepId := "out", consumes := ["ratio"], produces := [],
      kind := .output "ratio" ⟨.halfEven, 2⟩ }]
  subGraphs := []
  graph_ok := by decide

/-- The usual levels of the operators. -/
def usualLevels : Levels where
  unary _ := 9
  arithmetic op := match op with
    | .mul | .div => 8
    | .add | .sub => 7
  comparison op := match op with
    | .eq | .ne => 5
    | _ => 6
  connective op := match op with
    | .and => 4
    | .or => 3
    | .coalesce => 2

/-- An engine that refuses operands which are no numbers. -/
def strictEngine : Lazy.Engine ℚ (List Char) RatingFunction where
  unary _ _ := none
  arithmetic _ _ _ := none
  comparison _ _ _ := none
  call _ _ := none

/-- `1 / x` where a name is positive, and an expression otherwise. -/
def ratioWhere (name : String) (orelse : RatingExpr) : RatingExpr :=
  .cond (.comparison .gt (.name name) (.constant (.number (numberValue ['0']))))
    (.arithmetic .div (.constant (.number (numberValue ['1']))) (.name "x")) orelse

theorem numberText_digit {d : Char} (h : isDigit d = true) : NumberText [d] :=
  ⟨[d], List.cons_ne_nil _ _, List.forall_mem_singleton.mpr h, .inl rfl⟩

theorem spells_ratioWhere {name : List Char} {orelse : RatingExpr} {t : List Char}
    (hname : NameText name) (hkeep : String.ofList name ∉ keepWords)
    (horelse : Spells usualLevels 0 [orelse] [t]) :
    Spells usualLevels 0 [ratioWhere (String.ofList name) orelse]
      [name, ['>'], ['0'], ['?'], ['1'], ['/'], ['x'], [':'], t] := by
  have hx : Spells usualLevels 9 [.name (String.ofList ['x'])] [['x']] :=
    .name 9 ⟨'x', [], rfl, by decide, by rintro d ⟨⟩⟩ (by decide)
  have htest : Spells usualLevels 1
      [.comparison .gt (.name (String.ofList name)) (.constant (.number (numberValue ['0'])))]
      [name, ['>'], ['0']] :=
    .comparison (show 1 ≤ usualLevels.comparison .gt by decide) (.name 6 hname hkeep)
      (.number 7 (numberText_digit (by decide)))
  have hratio : Spells usualLevels 0
      [.arithmetic .div (.constant (.number (numberValue ['1']))) (.name "x")]
      [['1'], ['/'], ['x']] :=
    .arithmetic (show 0 ≤ usualLevels.arithmetic .div by decide)
      (.number 8 (numberText_digit (by decide))) hx
  exact .cond htest hratio horelse

theorem stringIssues_ratios :
    stringIssues (fun _ => true) ratios.toRatingAlgorithmDraft = [] := by
  decide

/-- The ratio that its own divisor guards never divides by zero. -/
theorem own_safe : Lazy.Safe strictEngine (fun _ => .number 0)
    (ratioWhere "x" (.constant (.number (numberValue ['0'])))) := by
  have hzero : NumberText ['0'] := numberText_digit (by decide)
  refine divisionGuards_safe (fun _ => true) ratios ⟨"own", "expr", "x > 0 ? 1 / x : 0"⟩ (by decide)
    (fun code => by simp [stringIssues_ratios]) usualLevels _ ?_ (.inr ?_) _ _
  · have htokens : tokens "x > 0 ? 1 / x : 0" =
        [['x'], ['>'], ['0'], ['?'], ['1'], ['/'], ['x'], [':'], ['0']] := by decide
    rw [htokens]
    exact spells_ratioWhere ⟨'x', [], rfl, by decide, by rintro d ⟨⟩⟩ (by decide) (.number 0 hzero)
  · have hvalue : numberValue ['0'] = 0 := by with_unfolding_all decide
    simp [ratioWhere, hvalue, Lazy.Guarded, Lazy.nonzeroIf, Lazy.ruledOut, Lazy.Comparison.holds]

def zeroDivisor (name : String) : Lazy.Value ℚ (List Char) :=
  .number (if name = "y" then 1 else 0)

/-- Validation reports nothing for the ratio that another name guards, and it divides by zero. -/
theorem other_divides :
    (⟨"other", "expr", "y > 0 ? 1 / x : own"⟩ : AuthoredString) ∈
        authoredExpressionFields ratios.toRatingAlgorithmDraft ∧
      stringIssues (fun _ => true) ratios.toRatingAlgorithmDraft = [] ∧
      Spells usualLevels 0 [ratioWhere "y" (.name "own")] (tokens "y > 0 ? 1 / x : own") ∧
      Lazy.eval strictEngine zeroDivisor (ratioWhere "y" (.name "own")) =
        .error .divisionByZero := by
  refine ⟨by decide, stringIssues_ratios, ?_, ?_⟩
  · have htokens : tokens "y > 0 ? 1 / x : own" =
        [['y'], ['>'], ['0'], ['?'], ['1'], ['/'], ['x'], [':'], ['o', 'w', 'n']] := by
      decide
    rw [htokens]
    exact spells_ratioWhere ⟨'y', [], rfl, by decide, by rintro d ⟨⟩⟩ (by decide)
      (.name 0 ⟨'o', ['w', 'n'], rfl, by decide, List.forall_mem_cons.mpr
        ⟨by decide, List.forall_mem_singleton.mpr (by decide)⟩⟩ (by decide))
  · have hzero : numberValue ['0'] = 0 := by with_unfolding_all decide
    have hone : numberValue ['1'] = 1 := by with_unfolding_all decide
    simp [ratioWhere, hzero, hone, Lazy.eval, Lazy.comparisonOf, Lazy.Comparison.holds, Lazy.test,
      Lazy.arithmeticOf, zeroDivisor]
    rfl

end GiPricing
