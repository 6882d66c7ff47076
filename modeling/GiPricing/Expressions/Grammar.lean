import GiPricing.Expressions.Syntax

/-! # What the parser accepts

The parser accepts the texts of the published grammar within the size limits. An empty argument list
of a function of any number of arguments stays out of the grammar.
-/

namespace GiPricing.Expressions

open Failure GiPricing.Graph

variable {profile : GrammarProfile} {bound : String → Prop}

/-! ## The grammar -/

def unaryOps (profile : GrammarProfile) : List UnaryOp :=
  if profile.strict then [.uSub] else [.uSub, .uAdd, .not]

def operators (profile : GrammarProfile) : List Operator :=
  if profile.strict then [.add, .sub, .mult, .div, .pow] else [.add, .sub, .mult, .div, .pow, .mod]

def comparisonOps : List CmpOp := [.eq, .notEq, .lt, .ltE, .gt, .gtE]

/-- The number of arguments that a function takes. -/
def Takes (id : String) (n : ℕ) : Prop := (∀ k ∈ arity id, n = k) ∧ 0 < n

/-- The published grammar of a profile over its bound symbols: arithmetic, calls of the listed functions,
and comparisons, in the strict profiles as the condition of a conditional only. -/
inductive Grammar (profile : GrammarProfile) (bound : String → Prop) : Expr → Prop
  | constant {value : Constant} (h : profile.strict = true → value.Numeric) :
    Grammar profile bound (.constant value)
  | name {id : String} (h : bound id) : Grammar profile bound (.name id)
  | unaryOp {op : UnaryOp} {e : Expr} (hop : op ∈ unaryOps profile) (h : Grammar profile bound e) :
    Grammar profile bound (.unaryOp op e)
  | binOp {l r : Expr} {op : Operator} (hop : op ∈ operators profile)
    (hl : Grammar profile bound l) (hr : Grammar profile bound r) :
    Grammar profile bound (.binOp l op r)
  | boolOp {op : BoolOperator} {e : Expr} {es : List Expr} (hstrict : profile.strict = false)
    (h : Grammar profile bound e) (hs : ∀ x ∈ es, Grammar profile bound x) :
    Grammar profile bound (.boolOp op e es)
  | compare {l r : Expr} {op : CmpOp} {ops : ℕ → CmpOp} (hstrict : profile.strict = false)
    (hop : op ∈ comparisonOps) (hl : Grammar profile bound l) (hr : Grammar profile bound r) :
    Grammar profile bound (.compare l op r ops [])
  | ifExp {test body orelse : Expr} (hstrict : profile.strict = false)
    (ht : Grammar profile bound test) (hb : Grammar profile bound body)
    (he : Grammar profile bound orelse) : Grammar profile bound (.ifExp test body orelse)
  | conditional {l r a b : Expr} {op : CmpOp} {ops : ℕ → CmpOp} (hop : op ∈ comparisonOps)
    (hl : Grammar profile bound l) (hr : Grammar profile bound r)
    (ha : Grammar profile bound a) (hb : Grammar profile bound b) :
    Grammar profile bound (.call (.name "where") [.compare l op r ops [], a, b] [])
  | call {id : String} {args : List Expr} (hid : id ∈ functions profile) (hwhere : id ≠ "where")
    (htakes : Takes id args.length) (h : ∀ a ∈ args, Grammar profile bound a) :
    Grammar profile bound (.call (.name id) args [])

/-! ## The walk -/

/-- A node that both walks pass. -/
def Admitted (profile : GrammarProfile) (bound : String → Prop) (node : Node) : Prop :=
  checkNode profile node = .ok ⟨⟩ ∧ ∀ id, node = .expr (.name id) → bound id

def Passes (profile : GrammarProfile) (bound : String → Prop) (node : Node) : Prop :=
  Node.tree.Everywhere (Admitted profile bound) node

theorem passes_iff {node : Node} : Passes profile bound node ↔
    Admitted profile bound node ∧ ∀ c ∈ node.children, Passes profile bound c :=
  FiniteTree.everywhere_iff

/-- The check of a node that is no call looks its class up. -/
theorem admitted_iff {node : Node}
    (hcall : ∀ func args keywords, node ≠ .expr (.call func args keywords) ∧
      node ≠ .called (.call func args keywords))
    (hname : ∀ id, node ≠ .expr (.name id)) :
    Admitted profile bound node ↔ node.className ∈ allowedNodes profile := by
  have hbound : ∀ id, node = .expr (.name id) → bound id := fun id h => absurd h (hname id)
  rw [Admitted, and_iff_left hbound, checkNode, ensure_bind_eq_ok]
  · constructor
    · exact And.left
    · intro h
      exact ⟨h, rfl⟩
  · exact fun func args keywords => (hcall func args keywords).1
  · exact fun func args keywords => (hcall func args keywords).2

theorem passes_load : Passes profile bound .load := by
  rw [passes_iff, admitted_iff (by simp) (by simp)]
  refine ⟨?_, by simp [Node.children]⟩
  cases profile <;> decide

theorem passes_unary {op : UnaryOp} : Passes profile bound (.unary op) ↔ op ∈ unaryOps profile := by
  rw [passes_iff, admitted_iff (by simp) (by simp), and_iff_left (by simp [Node.children])]
  cases profile <;> cases op <;> decide

theorem passes_operator {op : Operator} :
    Passes profile bound (.operator op) ↔ op ∈ operators profile := by
  rw [passes_iff, admitted_iff (by simp) (by simp), and_iff_left (by simp [Node.children])]
  cases profile <;> cases op <;> decide

theorem passes_bool {op : BoolOperator} :
    Passes profile bound (.bool op) ↔ profile.strict = false := by
  rw [passes_iff, admitted_iff (by simp) (by simp), and_iff_left (by simp [Node.children])]
  cases profile <;> cases op <;> decide

theorem passes_comparison {op : CmpOp} :
    Passes profile bound (.comparison op) ↔ op ∈ comparisonOps := by
  rw [passes_iff, admitted_iff (by simp) (by simp), and_iff_left (by simp [Node.children])]
  cases profile <;> cases op <;> decide

theorem passes_constant {value : Constant} : Passes profile bound (.expr (.constant value)) := by
  rw [passes_iff, admitted_iff (by simp) (by simp)]
  refine ⟨?_, by simp [Node.children, Node.ofExpr]⟩
  change "Constant" ∈ allowedNodes profile
  cases profile <;> decide

theorem passes_name {id : String} : Passes profile bound (.expr (.name id)) ↔ bound id := by
  rw [passes_iff, Admitted]
  constructor
  · rintro ⟨⟨-, h⟩, -⟩
    exact h id rfl
  · intro h
    refine ⟨⟨?_, ?_⟩, ?_⟩
    · cases profile <;> rfl
    · rintro _ ⟨⟩
      exact h
    · simpa [Node.children, Node.ofExpr] using passes_load

theorem passes_called {id : String} : Passes profile bound (.called (.name id)) := by
  rw [passes_iff, admitted_iff (by simp) (by simp)]
  refine ⟨?_, by simpa [Node.children, Node.ofExpr] using passes_load⟩
  change "Name" ∈ allowedNodes profile
  cases profile <;> decide

theorem passes_other {kind : OtherKind} : ¬ Passes profile bound (.expr (.other kind)) := by
  rw [passes_iff, admitted_iff (by simp) (by simp)]
  rintro ⟨h, -⟩
  revert h
  cases profile <;> cases kind <;> decide

theorem passes_unaryOp {op : UnaryOp} {e : Expr} : Passes profile bound (.expr (.unaryOp op e)) ↔
    op ∈ unaryOps profile ∧ Passes profile bound (.expr e) := by
  have hclass : "UnaryOp" ∈ allowedNodes profile := by cases profile <;> decide
  rw [passes_iff, admitted_iff (by simp) (by simp)]
  simp [Node.children, Node.ofExpr, Node.className, passes_unary, hclass]

theorem passes_binOp {l r : Expr} {op : Operator} :
    Passes profile bound (.expr (.binOp l op r)) ↔ op ∈ operators profile ∧
      Passes profile bound (.expr l) ∧ Passes profile bound (.expr r) := by
  have hclass : "BinOp" ∈ allowedNodes profile := by cases profile <;> decide
  rw [passes_iff, admitted_iff (by simp) (by simp)]
  simp only [Node.children, Node.ofExpr, Node.className, hclass, true_and, List.forall_mem_cons,
    List.not_mem_nil, false_implies, implies_true, and_true, passes_operator]
  exact and_left_comm

theorem passes_boolOp {op : BoolOperator} {e : Expr} {es : List Expr} :
    Passes profile bound (.expr (.boolOp op e es)) ↔ profile.strict = false ∧
      Passes profile bound (.expr e) ∧ ∀ x ∈ es, Passes profile bound (.expr x) := by
  have hclass : "BoolOp" ∈ allowedNodes profile ↔ profile.strict = false := by
    cases profile <;> decide
  rw [passes_iff, admitted_iff (by simp) (by simp)]
  simp [Node.children, Node.ofExpr, Node.className, hclass, passes_bool]

theorem passes_compare {l r : Expr} {op : CmpOp} {ops : ℕ → CmpOp} :
    Passes profile bound (.expr (.compare l op r ops [])) ↔ op ∈ comparisonOps ∧
      Passes profile bound (.expr l) ∧ Passes profile bound (.expr r) := by
  have hclass : "Compare" ∈ allowedNodes profile := by cases profile <;> decide
  rw [passes_iff, admitted_iff (by simp) (by simp)]
  simp only [Node.children, Node.ofExpr, Node.className, hclass, true_and, List.forall_mem_cons,
    List.not_mem_nil, false_implies, implies_true, and_true, passes_comparison, List.length_nil,
    List.range_zero, List.map_nil, List.cons_append, List.nil_append]
  exact and_left_comm

theorem passes_ifExp {test body orelse : Expr} :
    Passes profile bound (.expr (.ifExp test body orelse)) ↔ profile.strict = false ∧
      Passes profile bound (.expr test) ∧ Passes profile bound (.expr body) ∧
        Passes profile bound (.expr orelse) := by
  have hclass : "IfExp" ∈ allowedNodes profile ↔ profile.strict = false := by
    cases profile <;> decide
  rw [passes_iff, admitted_iff (by simp) (by simp)]
  simp [Node.children, Node.ofExpr, Node.className, hclass]

theorem passes_call {func : Expr} {args keywords : List Expr} :
    Passes profile bound (.expr (.call func args keywords)) ↔
      (∃ id, func = .name id ∧ id ∈ functions profile ∧ keywords = [] ∧
        ∀ n ∈ arity id, args.length = n) ∧ ∀ a ∈ args, Passes profile bound (.expr a) := by
  have hclass : "Call" ∈ allowedNodes profile := by cases profile <;> decide
  have hcheck : Admitted profile bound (.expr (.call func args keywords)) ↔
      checkCall profile func args keywords = .ok ⟨⟩ := by
    rw [Admitted, and_iff_left (by simp), checkNode, ensure_bind_eq_ok]
    exact and_iff_right hclass
  rw [passes_iff, hcheck]
  constructor
  · rintro ⟨h, hchildren⟩
    cases func with
    | name id =>
      obtain ⟨hid, h⟩ := ensure_bind_eq_ok.mp h
      obtain ⟨hkeywords, h⟩ := ensure_bind_eq_ok.mp h
      refine ⟨⟨id, rfl, hid, List.isEmpty_iff.mp hkeywords, ensure_eq_ok.mp h⟩, fun a ha => ?_⟩
      apply hchildren
      exact List.mem_append_left _ (List.mem_cons_of_mem _ (List.mem_map_of_mem ha))
    | _ => cases h
  · rintro ⟨⟨id, rfl, hid, rfl, harity⟩, hargs⟩
    refine ⟨?_, ?_⟩
    · exact ensure_bind_eq_ok.mpr ⟨hid, ensure_bind_eq_ok.mpr ⟨rfl, ensure_eq_ok.mpr harity⟩⟩
    · intro c hc
      rcases List.mem_append.mp hc with hc | hc
      · rcases List.mem_cons.mp hc with rfl | hc
        · exact passes_called
        · obtain ⟨a, ha, rfl⟩ := List.mem_map.mp hc
          exact hargs a ha
      · cases hc

/-! ## The structure -/

variable {es : List Expr}

theorem then_eq_ok {ε : Type} {x y : Except ε Unit} :
    (x >>= fun _ => y) = .ok ⟨⟩ ↔ x = .ok ⟨⟩ ∧ y = .ok ⟨⟩ := by
  cases x <;> simp [bind, Except.bind]

theorem checkStructures_eq_ok : checkStructures profile es = .ok ⟨⟩ ↔
    ∀ e ∈ es, checkStructure profile e false = .ok ⟨⟩ := by
  induction es with
  | nil => simp [checkStructures, pure, Except.pure]
  | cons e es ih =>
    rw [checkStructures, then_eq_ok, List.forall_mem_cons, ← ih]

theorem checkStructure_compare {l r : Expr} {op : CmpOp} {ops : ℕ → CmpOp} {chained : List Expr}
    {whereCondition : Bool} :
    checkStructure profile (.compare l op r ops chained) whereCondition = .ok ⟨⟩ ↔
      chained = [] ∧ (profile.strict = true → whereCondition = true) ∧
        checkStructure profile l false = .ok ⟨⟩ ∧ checkStructure profile r false = .ok ⟨⟩ := by
  rw [checkStructure, ensure_bind_eq_ok, ensure_bind_eq_ok, List.isEmpty_iff]
  constructor
  · rintro ⟨rfl, hstrict, h⟩
    obtain ⟨hl, h⟩ := then_eq_ok.mp h
    exact ⟨rfl, hstrict, hl, (then_eq_ok.mp h).1⟩
  · rintro ⟨rfl, hstrict, hl, hr⟩
    refine ⟨rfl, hstrict, ?_⟩
    exact then_eq_ok.mpr ⟨hl, then_eq_ok.mpr ⟨hr, checkStructures_nil profile⟩⟩

theorem checkStructure_call {id : String} {args : List Expr} {whereCondition : Bool}
    (hwhere : id ≠ "where") :
    checkStructure profile (.call (.name id) args []) whereCondition = .ok ⟨⟩ ↔
      ∀ a ∈ args, checkStructure profile a false = .ok ⟨⟩ := by
  rw [← checkStructures_eq_ok]
  by_cases hthree : ∃ c a b, args = [c, a, b]
  · obtain ⟨c, a, b, rfl⟩ := hthree
    rw [checkStructure, if_neg (by simpa [Expr.IsName] using hwhere), checkStructure_name,
      checkStructures_nil, checkStructures, checkStructures, checkStructures, checkStructures_nil]
    simp only [then_eq_ok, true_and, and_true]
  · rw [checkStructure, checkStructure_name, checkStructures_nil]
    · simp only [then_eq_ok, true_and, and_true]
    · rintro c a b rfl
      exact hthree ⟨c, a, b, rfl⟩

theorem checkStructure_where {c a b : Expr} {whereCondition : Bool} :
    checkStructure profile (.call (.name "where") [c, a, b] []) whereCondition = .ok ⟨⟩ ↔
      c.IsCompare ∧ checkStructure profile c true = .ok ⟨⟩ ∧
        checkStructure profile a false = .ok ⟨⟩ ∧ checkStructure profile b false = .ok ⟨⟩ := by
  rw [checkStructure, if_pos (by simp [Expr.IsName]), ensure_bind_eq_ok]
  simp only [then_eq_ok]

/-! ## Acceptance -/

/-- A tree that the walks and the structure check pass. -/
def Checked (profile : GrammarProfile) (bound : String → Prop) (e : Expr) : Prop :=
  Passes profile bound (.expr e) ∧ checkStructure profile e false = .ok ⟨⟩

/-- Every call has an argument. -/
def CallsApply (e : Expr) : Prop :=
  Expr.tree.Everywhere (fun x => ∀ func keywords, x ≠ .call func [] keywords) e

theorem CallsApply.intro {e : Expr} (h : ∀ func keywords, e ≠ .call func [] keywords)
    (hchildren : ∀ c ∈ e.children, CallsApply c) : CallsApply e :=
  FiniteTree.everywhere_iff.mpr ⟨h, hchildren⟩

theorem CallsApply.below {e c : Expr} (h : CallsApply e) (hc : Expr.tree.Below e c) :
    CallsApply c := fun x hx => h x (hc.trans hx)

theorem forall_checked : (∀ e ∈ es, Checked profile bound e) ↔
    (∀ e ∈ es, Passes profile bound (.expr e)) ∧
      ∀ e ∈ es, checkStructure profile e false = .ok ⟨⟩ := forall₂_and

/-- The checks accept the trees of the grammar. -/
theorem checked_iff_grammar (e : Expr) :
    CallsApply e → (Checked profile bound e ↔ Grammar profile bound e) := by
  induction e using FiniteTree.induct_below (t := Expr.tree.toFiniteTree) with
  | _ e hbelow =>
  intro happly
  have ih : ∀ c ∈ e.children, Checked profile bound c ↔ Grammar profile bound c :=
    fun c hc => hbelow c hc c (.refl c) (happly.below (.child hc (.refl c)))
  cases e with
  | constant value =>
    rw [Checked, and_iff_right passes_constant, checkStructure, ensure_eq_ok]
    constructor
    · exact .constant
    · rintro ⟨h⟩
      exact h
  | name id =>
    rw [Checked, passes_name, and_iff_left (checkStructure_name profile)]
    constructor
    · exact .name
    · rintro ⟨⟩
      assumption
  | unaryOp op operand =>
    have hoperand := ih operand (by simp [Expr.children])
    rw [Checked, passes_unaryOp, checkStructure, and_assoc, ← Checked, hoperand]
    constructor
    · rintro ⟨hop, h⟩
      exact .unaryOp hop h
    · rintro ⟨⟩
      exact ⟨‹_›, ‹_›⟩
  | binOp left op right =>
    have hleft := ih left (by simp [Expr.children])
    have hright := ih right (by simp [Expr.children])
    rw [Checked, passes_binOp, checkStructure, then_eq_ok]
    constructor
    · rintro ⟨⟨hop, hl, hr⟩, hsl, hsr⟩
      exact .binOp hop (hleft.mp ⟨hl, hsl⟩) (hright.mp ⟨hr, hsr⟩)
    · intro h
      cases h with
      | binOp hop hl hr =>
        obtain ⟨hl, hsl⟩ := hleft.mpr hl
        obtain ⟨hr, hsr⟩ := hright.mpr hr
        exact ⟨⟨hop, hl, hr⟩, hsl, hsr⟩
  | boolOp op first others =>
    have hfirst := ih first (by simp [Expr.children])
    have hothers : (∀ x ∈ others, Checked profile bound x) ↔ ∀ x ∈ others, Grammar profile bound x :=
      forall₂_congr fun x hx => ih x (List.mem_cons_of_mem _ hx)
    rw [Checked, passes_boolOp, checkStructure, then_eq_ok]
    constructor
    · rintro ⟨⟨hstrict, hf, ho⟩, hsf, hso⟩
      exact .boolOp hstrict (hfirst.mp ⟨hf, hsf⟩)
        (hothers.mp (forall_checked.mpr ⟨ho, checkStructures_eq_ok.mp hso⟩))
    · intro h
      cases h with
      | boolOp hstrict hf ho =>
        obtain ⟨hf, hsf⟩ := hfirst.mpr hf
        obtain ⟨ho, hso⟩ := forall_checked.mp (hothers.mpr ho)
        exact ⟨⟨hstrict, hf, ho⟩, hsf, checkStructures_eq_ok.mpr hso⟩
  | compare left op right ops chained =>
    have hleft := ih left (by simp [Expr.children])
    have hright := ih right (by simp [Expr.children])
    rw [Checked, checkStructure_compare]
    constructor
    · rintro ⟨hpasses, rfl, hstrict, hsl, hsr⟩
      obtain ⟨hop, hl, hr⟩ := passes_compare.mp hpasses
      exact .compare (by simpa using hstrict) hop (hleft.mp ⟨hl, hsl⟩) (hright.mp ⟨hr, hsr⟩)
    · intro h
      cases h with
      | compare hstrict hop hl hr =>
        obtain ⟨hl, hsl⟩ := hleft.mpr hl
        obtain ⟨hr, hsr⟩ := hright.mpr hr
        exact ⟨passes_compare.mpr ⟨hop, hl, hr⟩, rfl, by simp [hstrict], hsl, hsr⟩
  | ifExp test body orelse =>
    have htest := ih test (by simp [Expr.children])
    have hbody := ih body (by simp [Expr.children])
    have horelse := ih orelse (by simp [Expr.children])
    rw [Checked, passes_ifExp, checkStructure]
    rw [then_eq_ok, then_eq_ok]
    constructor
    · rintro ⟨⟨hstrict, ht, hb, he⟩, hst, hsb, hse⟩
      exact .ifExp hstrict (htest.mp ⟨ht, hst⟩) (hbody.mp ⟨hb, hsb⟩) (horelse.mp ⟨he, hse⟩)
    · intro h
      cases h with
      | ifExp hstrict ht hb he =>
        obtain ⟨ht, hst⟩ := htest.mpr ht
        obtain ⟨hb, hsb⟩ := hbody.mpr hb
        obtain ⟨he, hse⟩ := horelse.mpr he
        exact ⟨⟨hstrict, ht, hb, he⟩, hst, hsb, hse⟩
  | call func args keywords =>
    have hargs : ∀ a ∈ args, Checked profile bound a ↔ Grammar profile bound a :=
      fun a ha => ih a (List.mem_append_left _ (List.mem_cons_of_mem _ ha))
    have hsides : ∀ l op r ops, Expr.compare l op r ops [] ∈ args →
        (Checked profile bound l ↔ Grammar profile bound l) ∧
          (Checked profile bound r ↔ Grammar profile bound r) := by
      intro l op r ops hmem
      have hchild : Expr.compare l op r ops [] ∈ (Expr.call func args keywords).children :=
        List.mem_append_left _ (List.mem_cons_of_mem _ hmem)
      have hside : ∀ c ∈ [l, r], Checked profile bound c ↔ Grammar profile bound c := by
        intro c hc
        have hc : Expr.tree.Below (.compare l op r ops []) c := .child hc (.refl c)
        exact hbelow _ hchild c hc (happly.below (.child hchild hc))
      exact ⟨hside l (by simp), hside r (by simp)⟩
    have hpos : 0 < args.length := List.length_pos_iff.mpr fun hnil =>
      (FiniteTree.everywhere_iff.mp happly).1 func keywords (by rw [hnil])
    rw [Checked, passes_call]
    constructor
    · rintro ⟨⟨⟨id, rfl, hid, rfl, harity⟩, hpasses⟩, hstructure⟩
      by_cases hwhere : id = "where"
      · subst hwhere
        obtain ⟨c, a, b, rfl⟩ := List.length_eq_three.mp (harity 3 rfl)
        obtain ⟨hcompare, hsc, hsa, hsb⟩ := checkStructure_where.mp hstructure
        cases c with
        | compare l op r ops chained =>
          obtain ⟨rfl, -, hsl, hsr⟩ := checkStructure_compare.mp hsc
          obtain ⟨hop, hl, hr⟩ := passes_compare.mp (hpasses _ List.mem_cons_self)
          obtain ⟨hleft, hright⟩ := hsides l op r ops List.mem_cons_self
          apply Grammar.conditional hop (hleft.mp ⟨hl, hsl⟩) (hright.mp ⟨hr, hsr⟩)
          · exact (hargs a (by simp)).mp ⟨hpasses a (by simp), hsa⟩
          · exact (hargs b (by simp)).mp ⟨hpasses b (by simp), hsb⟩
        | _ => cases hcompare
      · exact .call hid hwhere ⟨harity, hpos⟩ fun a ha => (hargs a ha).mp
          ⟨hpasses a ha, (checkStructure_call hwhere).mp hstructure a ha⟩
    · intro h
      cases h with
      | @conditional l r a b op ops hop hl hr ha hb =>
        obtain ⟨hleft, hright⟩ := hsides l op r ops List.mem_cons_self
        obtain ⟨hl, hsl⟩ := hleft.mpr hl
        obtain ⟨hr, hsr⟩ := hright.mpr hr
        obtain ⟨ha, hsa⟩ := (hargs a (by simp)).mpr ha
        obtain ⟨hb, hsb⟩ := (hargs b (by simp)).mpr hb
        refine ⟨⟨⟨"where", rfl, ?_, rfl, ?_⟩, ?_⟩, ?_⟩
        · cases profile <;> decide
        · rintro _ ⟨⟩
          rfl
        · simpa using ⟨passes_compare.mpr ⟨hop, hl, hr⟩, ha, hb⟩
        · exact checkStructure_where.mpr ⟨trivial,
            checkStructure_compare.mpr ⟨rfl, fun _ => rfl, hsl, hsr⟩, hsa, hsb⟩
      | call hid hwhere htakes h =>
        refine ⟨⟨⟨_, rfl, hid, rfl, htakes.1⟩, fun a ha => ((hargs a ha).mpr (h a ha)).1⟩, ?_⟩
        exact (checkStructure_call hwhere).mpr fun a ha => ((hargs a ha).mpr (h a ha)).2
  | other kind =>
    constructor
    · rintro ⟨h, -⟩
      exact absurd h passes_other
    · rintro ⟨⟩

/-! ## The parser -/

/-- A name that the symbols bind. A profile without symbols binds every name. -/
def Bound (symbols : Option (List String)) (id : String) : Prop := ∀ l ∈ symbols, id ∈ l

theorem mapError_unit_eq_ok {ε ε' : Type} {x : Except ε Unit} {f : ε → ε'} :
    x.mapError f = .ok ⟨⟩ ↔ x = .ok ⟨⟩ := mapError_eq_ok

theorem everywhere_expression {P : Node → Prop} {body : Expr} (h : P (.expression body)) :
    Node.tree.Everywhere P (.expression body) ↔ Node.tree.Everywhere P (.expr body) := by
  rw [FiniteTree.everywhere_iff, and_iff_right h]
  exact List.forall_mem_singleton

theorem checkNodes_eq_ok {body : Expr} : checkNodes profile body = .ok ⟨⟩ ↔
    Node.tree.Everywhere (fun n => checkNode profile n = .ok ⟨⟩) (.expr body) := by
  rw [checkNodes, forM_eq_ok, FiniteTree.forall_mem_walk]
  apply everywhere_expression
  cases profile <;> rfl

theorem checkSymbols_eq_ok {symbols : List String} {body : Expr} :
    checkSymbols symbols body = .ok ⟨⟩ ↔
      Node.tree.Everywhere (fun n => ∀ id, n = .expr (.name id) → id ∈ symbols) (.expr body) := by
  have hnode : ∀ n, checkSymbol symbols n = .ok ⟨⟩ ↔ ∀ id, n = .expr (.name id) → id ∈ symbols := by
    intro n
    by_cases hname : ∃ id, n = .expr (.name id)
    · obtain ⟨id, rfl⟩ := hname
      rw [checkSymbol, ensure_eq_ok]
      simp
    · rw [checkSymbol]
      · exact ⟨fun _ id h => absurd ⟨id, h⟩ hname, fun _ => rfl⟩
      · exact fun id h => hname ⟨id, h⟩
  rw [checkSymbols, forM_eq_ok, FiniteTree.forall_mem_walk]
  simp only [hnode]
  apply everywhere_expression
  rintro _ ⟨⟩

theorem checkLimits_eq_ok {limits : ExpressionLimits} {body : Expr} :
    checkLimits limits body = .ok ⟨⟩ ↔
      body.nodes ≤ limits.maxNodes ∧ body.depth ≤ limits.maxDepth := by
  have hnodes : (Expr.tree.measure body).1 = body.nodes := SizedTree.measure_nodes body
  have hdepth : (Expr.tree.measure body).2 = body.depth := SizedTree.measure_depth body
  rw [checkLimits, ← hnodes, ← hdepth]
  simp only [ensure_bind_eq_ok, ensure_eq_ok]

/-- A parse succeeds on a tree within the limits that every check passes. -/
theorem parseExpression_eq_ok {astParse : String → Option Expr} {text : String}
    {symbols : Option (List String)} {limits : ExpressionLimits} {body : Expr} :
    parseExpression profile astParse text symbols limits = .ok body ↔
      (profile.strict = true → symbols.isSome = true) ∧ astParse text = some body ∧
        (body.nodes ≤ limits.maxNodes ∧ body.depth ≤ limits.maxDepth) ∧
          Checked profile (Bound symbols) body := by
  have hpasses : Passes profile (Bound symbols) (.expr body) ↔ checkNodes profile body = .ok ⟨⟩ ∧
      (symbols.elim (.ok ⟨⟩) fun symbols => checkSymbols symbols body) = .ok ⟨⟩ := by
    rw [checkNodes_eq_ok]
    apply FiniteTree.everywhere_and.trans
    apply and_congr_right
    intro _
    cases symbols with
    | none => simp [Bound, FiniteTree.Everywhere]
    | some l =>
      rw [Option.elim_some, checkSymbols_eq_ok]
      simp [Bound]
  rw [Checked, hpasses, parseExpression, ensure_bind_eq_ok, require_bind_eq_ok]
  apply and_congr_right
  intro _
  constructor
  · rintro ⟨tree, htree, h⟩
    obtain ⟨⟨⟩, hnodes, h⟩ := bind_eq_ok.mp h
    obtain ⟨⟨⟩, hlimits, h⟩ := bind_eq_ok.mp h
    obtain ⟨⟨⟩, hstructure, h⟩ := bind_eq_ok.mp h
    obtain ⟨⟨⟩, hsymbols, h⟩ := bind_eq_ok.mp h
    obtain rfl := pure_eq_ok.mp h
    rw [mapError_unit_eq_ok] at hnodes hlimits hstructure hsymbols
    exact ⟨htree, checkLimits_eq_ok.mp hlimits, ⟨hnodes, hsymbols⟩, hstructure⟩
  · rintro ⟨htree, hlimits, ⟨hnodes, hsymbols⟩, hstructure⟩
    refine ⟨body, htree, ?_⟩
    rw [hnodes, checkLimits_eq_ok.mpr hlimits, hstructure, hsymbols]
    rfl

theorem parseExpression_grammar {astParse : String → Option Expr} {text : String}
    {symbols : Option (List String)} {limits : ExpressionLimits} {body : Expr}
    (htext : astParse text = some body) (happly : CallsApply body) :
    parseExpression profile astParse text symbols limits = .ok body ↔
      (profile.strict = true → symbols.isSome = true) ∧
        (body.nodes ≤ limits.maxNodes ∧ body.depth ≤ limits.maxDepth) ∧
          Grammar profile (Bound symbols) body := by
  rw [parseExpression_eq_ok, checked_iff_grammar body happly, and_iff_right htext]

end GiPricing.Expressions
