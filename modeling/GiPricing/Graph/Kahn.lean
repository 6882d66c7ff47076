import Mathlib.Data.List.Nodup
import Mathlib.Data.List.Perm.Lattice
import Mathlib.Data.List.MinMax
import Mathlib.Logic.Function.Basic
import Mathlib.Order.WellFounded
import Mathlib.Data.Set.Finite.List
import Mathlib.Tactic

/-! # Kahn's algorithm

A queue of ready nodes is served under an arbitrary discipline. The served order is
topological whatever the discipline, and it contains every node exactly when the
dependencies admit a rank.
-/

namespace GiPricing.Kahn

variable {α : Type*} [DecidableEq α]

/-- A rule for taking the next node out of a queue. -/
structure Discipline (α : Type*) where
  pop : List α → Option (α × List α)
  pop_perm : ∀ {q a q'}, pop q = some (a, q') → q.Perm (a :: q')
  pop_isSome : ∀ {q}, q ≠ [] → (pop q).isSome

/-- The discipline of a stack: the last node pushed is taken first. -/
def lifo : Discipline α where
  pop q := match q.reverse with
    | [] => none
    | a :: q' => some (a, q'.reverse)
  pop_perm := by
    intro q a q' h
    cases hq : q.reverse with
    | nil => simp [hq] at h
    | cons b t =>
      simp only [hq, Option.some.injEq, Prod.mk.injEq] at h
      obtain ⟨rfl, rfl⟩ := h
      have hp : q.Perm (b :: t) := hq ▸ q.reverse_perm.symm
      exact hp.trans ((List.reverse_perm t).symm.cons b)
  pop_isSome := by
    intro q hq
    cases hr : q.reverse with
    | nil => exact absurd (List.reverse_eq_nil_iff.mp hr) hq
    | cons b t => simp

/-- The discipline of a heap: a node of least key is taken first. -/
def heap (key : α → ℕ) : Discipline α where
  pop q := (q.argmin key).map fun a => (a, q.erase a)
  pop_perm := by
    intro q a q' h
    obtain ⟨b, hb, he⟩ := Option.map_eq_some_iff.mp h
    obtain ⟨rfl, rfl⟩ := Prod.mk.inj he
    exact List.perm_cons_erase (List.argmin_mem hb)
  pop_isSome := by
    intro q hq
    cases ha : q.argmin key with
    | none => exact absurd (List.argmin_eq_none.mp ha) hq
    | some b => simp

/-- The loop state: unserved dependencies of each node, the queue and the nodes served. -/
structure State (α : Type*) where
  pending : α → ℕ
  ready : List α
  order : List α

variable (d : Discipline α) (deps : α → List α) (nodes : List α)

/-- Count `sid` as served for one node, queueing the node when nothing else is pending. -/
def settle (sid : α) (s : State α) (other : α) : State α :=
  if sid ∈ deps other then
    { s with
      pending := Function.update s.pending other (s.pending other - 1)
      ready := if s.pending other - 1 = 0 then s.ready ++ [other] else s.ready }
  else s

def start : State α where
  pending a := (deps a).length
  ready := nodes.filter fun a => (deps a).length = 0
  order := []

/-- Serve one ready node; the loop ends when the queue is empty. -/
def step (s : State α) : Option (State α) :=
  (d.pop s.ready).map fun (sid, rest) =>
    nodes.foldl (settle deps sid) { s with ready := rest, order := s.order ++ [sid] }

def run : ℕ → State α → State α
  | 0, s => s
  | n + 1, s => match step d deps nodes s with
    | none => s
    | some s' => run n s'

/-- The nodes in the order served. A node is queued once, so the fuel is never exhausted. -/
def order : List α := (run d deps nodes nodes.length (start deps nodes)).order

/-- Every node of the list comes after all its dependencies. -/
def Topological (l : List α) : Prop :=
  ∀ p a s, l = p ++ a :: s → ∀ b ∈ deps a, b ∈ p

/-- The dependencies of the nodes strictly decrease a rank, so none of them lies on a cycle. -/
def Acyclic : Prop := ∃ rank : α → ℕ, ∀ a ∈ nodes, ∀ b ∈ deps a, rank b < rank a

/-- The dependency lists are duplicate-free sets of other nodes. -/
structure WellFormed : Prop where
  nodup : nodes.Nodup
  deps_nodup : ∀ a, (deps a).Nodup
  deps_mem : ∀ a ∈ nodes, ∀ b ∈ deps a, b ∈ nodes
  irrefl : ∀ a, a ∉ deps a

variable {d deps nodes}

omit [DecidableEq α] in
theorem Topological.append_singleton {l : List α} {a : α} (h : Topological deps l)
    (ha : ∀ b ∈ deps a, b ∈ l) : Topological deps (l ++ [a]) := by
  intro p x s he b hb
  rcases List.eq_nil_or_concat s with rfl | ⟨t, y, rfl⟩
  · obtain ⟨rfl, hx⟩ := List.append_inj' he rfl
    obtain rfl : a = x := by simpa using hx
    exact ha b hb
  · have he' : l ++ [a] = (p ++ x :: t) ++ [y] := by simpa using he
    exact h p x t (List.append_inj' he' rfl).1 b hb

theorem Topological.before {l : List α} (h : Topological deps l) (hn : l.Nodup) {a b : α}
    (ha : a ∈ l) (hb : b ∈ deps a) : l.idxOf b < l.idxOf a := by
  obtain ⟨p, s, rfl⟩ := List.append_of_mem ha
  have hbp := h p a s rfl b hb
  have hap : a ∉ p := fun hap => by
    have := List.disjoint_of_nodup_append hn hap
    simp at this
  rw [List.idxOf_append_of_mem hbp, List.idxOf_append_of_notMem hap]
  have := List.idxOf_lt_length_of_mem hbp
  simp only [List.idxOf_cons_self]
  omega

theorem Topological.acyclic {l : List α} (h : Topological deps l) (hn : l.Nodup)
    (hl : ∀ a ∈ nodes, a ∈ l) : Acyclic deps nodes :=
  ⟨fun a => l.idxOf a, fun a ha _ hb => h.before hn (hl a ha) hb⟩

/-- No element depends on a later one. -/
def Respects (deps : α → List α) (l : List α) : Prop := l.Pairwise fun a b => b ∉ deps a

omit [DecidableEq α] in
theorem Topological.respects {l : List α} (h : Topological deps l) (hn : l.Nodup) :
    Respects deps l := by
  refine List.pairwise_iff_forall_sublist.mpr fun {a b} hab hb => ?_
  obtain ⟨p, s, rfl, ha, hs⟩ := List.cons_sublist_iff.mp hab
  obtain ⟨p₁, p₂, rfl⟩ := List.append_of_mem ha
  have hbp : b ∈ p₁ := h p₁ a (p₂ ++ s) (by simp) b hb
  exact (List.nodup_append.mp hn).2.2 b (List.mem_append_left _ hbp) b
    (List.singleton_sublist.mp hs) rfl

/-- The loop invariant, with the served nodes removed from every dependency list. -/
structure Inv (deps : α → List α) (nodes : List α) (s : State α) : Prop where
  order_nodup : s.order.Nodup
  order_mem : ∀ a ∈ s.order, a ∈ nodes
  ready_nodup : s.ready.Nodup
  pending_eq : ∀ a ∈ nodes, s.pending a = ((deps a).filter (· ∉ s.order)).length
  mem_ready : ∀ a, a ∈ s.ready ↔ a ∈ nodes ∧ a ∉ s.order ∧ ∀ b ∈ deps a, b ∈ s.order
  topological : Topological deps s.order

theorem inv_start (w : WellFormed deps nodes) : Inv deps nodes (start deps nodes) where
  order_nodup := List.nodup_nil
  order_mem := by simp [start]
  ready_nodup := w.nodup.filter _
  pending_eq a _ := by simp [start]
  mem_ready a := by simp [start, List.eq_nil_iff_forall_not_mem]
  topological p a s h := by simp [start] at h

theorem foldl_settle {sid : α} (l : List α) (hl : l.Nodup) (s : State α) :
    let s' := l.foldl (settle deps sid) s
    s'.order = s.order ∧
    (∀ a, s'.pending a = if a ∈ l ∧ sid ∈ deps a then s.pending a - 1 else s.pending a) ∧
    s'.ready = s.ready ++ l.filter fun a => sid ∈ deps a ∧ s.pending a - 1 = 0 := by
  induction l generalizing s with
  | nil => simp
  | cons x l ih =>
    obtain ⟨hx, hl⟩ := List.nodup_cons.mp hl
    obtain ⟨ho, hp, hr⟩ := ih hl (settle deps sid s x)
    have hpend : ∀ a ∈ l, (settle deps sid s x).pending a = s.pending a := by
      intro a ha
      have hne : a ≠ x := fun he => hx (he ▸ ha)
      unfold settle; split <;> simp [hne]
    refine ⟨?_, ?_, ?_⟩
    · rw [List.foldl_cons, ho]; unfold settle; split <;> rfl
    · intro a
      rw [List.foldl_cons, hp a]
      by_cases hax : a = x
      · subst hax
        by_cases hs : sid ∈ deps a <;> simp [settle, hx, hs]
      · have : (settle deps sid s x).pending a = s.pending a := by
          unfold settle; split <;> simp [hax]
        simp [this, hax]
    · rw [List.foldl_cons, hr]
      have hf : l.filter (fun a => sid ∈ deps a ∧ (settle deps sid s x).pending a - 1 = 0) =
          l.filter fun a => sid ∈ deps a ∧ s.pending a - 1 = 0 :=
        List.filter_congr fun a ha => by rw [hpend a ha]
      rw [hf]
      by_cases hs : sid ∈ deps x
      · by_cases h0 : s.pending x - 1 = 0 <;> simp [settle, hs, h0]
      · simp [settle, hs]

theorem filter_served (a sid : α) (order : List α) (hn : (deps a).Nodup) (hs : sid ∉ order) :
    ((deps a).filter (· ∉ order ++ [sid])).length =
      if sid ∈ deps a then ((deps a).filter (· ∉ order)).length - 1
      else ((deps a).filter (· ∉ order)).length := by
  have he : (deps a).filter (· ∉ order ++ [sid]) = ((deps a).filter (· ∉ order)).erase sid := by
    rw [(hn.filter _).erase_eq_filter, List.filter_filter]
    exact List.filter_congr fun b _ => by
      simp only [List.mem_append, List.mem_singleton, not_or, Bool.decide_and,
        decide_not, Bool.and_comm, bne]; rfl
  rw [he]
  split
  · rename_i h
    exact List.length_erase_of_mem (List.mem_filter.mpr ⟨h, by simpa using hs⟩)
  · rename_i h
    rw [List.erase_of_not_mem fun hm => h (List.mem_filter.mp hm).1]

/-- Serving a ready node preserves the invariant. -/
theorem Inv.step (w : WellFormed deps nodes) {s s' : State α} (i : Inv deps nodes s)
    (h : step d deps nodes s = some s') :
    Inv deps nodes s' ∧ s'.order.length = s.order.length + 1 := by
  obtain ⟨⟨sid, rest⟩, hpop, rfl⟩ := Option.map_eq_some_iff.mp h
  have hperm := d.pop_perm hpop
  obtain ⟨hsn, hso, hsd⟩ := (i.mem_ready sid).mp (hperm.mem_iff.mpr List.mem_cons_self)
  have hrest : (sid :: rest).Nodup := hperm.nodup_iff.mp i.ready_nodup
  obtain ⟨ho, hp, hr⟩ := @foldl_settle _ _ deps sid nodes w.nodup
    { s with ready := rest, order := s.order ++ [sid] }
  simp only at ho hp hr
  have hzero : ∀ a ∈ nodes, sid ∈ deps a →
      (s.pending a - 1 = 0 ↔ ∀ b ∈ deps a, b ∈ s.order ++ [sid]) := by
    intro a ha hd
    have hf := filter_served a sid s.order (w.deps_nodup a) hso
    rw [if_pos hd, ← i.pending_eq a ha] at hf
    rw [← hf, List.length_eq_zero_iff, List.filter_eq_nil_iff]
    simp only [decide_eq_true_eq, not_not]
  refine ⟨⟨?_, ?_, ?_, ?_, ?_, ?_⟩, ?_⟩
  · rw [ho]
    exact List.nodup_append.mpr ⟨i.order_nodup, by simp, fun a ha b hb he => by
      obtain rfl := List.mem_singleton.mp hb
      exact hso (he ▸ ha)⟩
  · rw [ho]; intro a ha
    rcases List.mem_append.mp ha with ha | ha
    · exact i.order_mem a ha
    · obtain rfl := List.mem_singleton.mp ha; exact hsn
  · rw [hr]
    refine List.nodup_append.mpr ⟨(List.nodup_cons.mp hrest).2, w.nodup.filter _, ?_⟩
    rintro a ha b hb rfl
    have hb := List.mem_filter.mp hb
    obtain ⟨_, _, hdeps⟩ := (i.mem_ready a).mp (hperm.mem_iff.mpr (List.mem_cons_of_mem _ ha))
    exact hso (hdeps sid (by simpa using (of_decide_eq_true hb.2).1))
  · intro a ha
    rw [hp a, ho, filter_served a sid s.order (w.deps_nodup a) hso, i.pending_eq a ha]
    simp [ha]
  · intro a
    rw [hr, ho, List.mem_append, List.mem_filter, decide_eq_true_eq]
    constructor
    · rintro (ha | ⟨ha, hd, hz⟩)
      · obtain ⟨han, hao, had⟩ := (i.mem_ready a).mp (hperm.mem_iff.mpr (List.mem_cons_of_mem _ ha))
        have hne : a ≠ sid := fun he => (List.nodup_cons.mp hrest).1 (he ▸ ha)
        exact ⟨han, by simp [hao, hne], fun b hb => List.mem_append_left _ (had b hb)⟩
      · have hne : a ≠ sid := fun he => w.irrefl a (he ▸ hd)
        have hao : a ∉ s.order := fun hao => by
          obtain ⟨p, t, he⟩ := List.append_of_mem hao
          exact hso (he ▸ List.mem_append_left _ (i.topological p a t he sid hd))
        exact ⟨ha, by simp [hao, hne], (hzero a ha hd).mp hz⟩
    · rintro ⟨han, hao, had⟩
      simp only [List.mem_append, List.mem_singleton, not_or] at hao
      by_cases hd : sid ∈ deps a
      · exact Or.inr ⟨han, hd, (hzero a han hd).mpr had⟩
      · have hready : a ∈ s.ready := (i.mem_ready a).mpr ⟨han, hao.1, fun b hb => by
          rcases List.mem_append.mp (had b hb) with h | h
          · exact h
          · exact absurd (List.mem_singleton.mp h ▸ hb) hd⟩
        exact Or.inl ((List.mem_cons.mp (hperm.mem_iff.mp hready)).resolve_left hao.2)
  · rw [ho]; exact i.topological.append_singleton hsd
  · rw [ho]; simp

theorem Inv.run (w : WellFormed deps nodes) {n : ℕ} {s : State α} (i : Inv deps nodes s)
    (hn : nodes.length ≤ s.order.length + n) :
    Inv deps nodes (run d deps nodes n s) ∧ (run d deps nodes n s).ready = [] := by
  induction n generalizing s with
  | zero =>
    refine ⟨i, List.eq_nil_iff_forall_not_mem.mpr fun a ha => ?_⟩
    obtain ⟨han, hao, _⟩ := (i.mem_ready a).mp ha
    have hs : (a :: s.order).Nodup := List.nodup_cons.mpr ⟨hao, i.order_nodup⟩
    have hsub : (a :: s.order).Subperm nodes := hs.subperm fun b hb => by
      rcases List.mem_cons.mp hb with rfl | hb
      · exact han
      · exact i.order_mem b hb
    have hl := hsub.length_le
    simp only [List.length_cons] at hl
    change nodes.length ≤ s.order.length + 0 at hn
    omega
  | succ n ih =>
    rw [Kahn.run]
    cases hs : Kahn.step d deps nodes s with
    | none =>
      refine ⟨i, by_contra fun hne => ?_⟩
      have := d.pop_isSome hne
      simp only [Kahn.step, Option.map_eq_none_iff] at hs
      simp [hs] at this
    | some s' =>
      obtain ⟨i', hlen⟩ := i.step w hs
      exact ih i' (by omega)

theorem inv_order (w : WellFormed deps nodes) :
    Inv deps nodes (run d deps nodes nodes.length (start deps nodes)) ∧
      (run d deps nodes nodes.length (start deps nodes)).ready = [] :=
  (inv_start w).run w (by simp [start])

theorem order_nodup (w : WellFormed deps nodes) : (order d deps nodes).Nodup :=
  (inv_order w).1.order_nodup

theorem order_mem (w : WellFormed deps nodes) {a : α} (h : a ∈ order d deps nodes) : a ∈ nodes :=
  (inv_order w).1.order_mem a h

theorem order_topological (w : WellFormed deps nodes) :
    Topological deps (order d deps nodes) := (inv_order w).1.topological

theorem order_complete (w : WellFormed deps nodes) (h : Acyclic deps nodes) {a : α}
    (ha : a ∈ nodes) : a ∈ order d deps nodes := by
  obtain ⟨rank, hr⟩ := h
  obtain ⟨i, he⟩ := inv_order (d := d) w
  induction hk : rank a using Nat.strong_induction_on generalizing a with
  | _ k ih =>
    by_contra ho
    have hready := (i.mem_ready a).mpr ⟨ha, ho, fun b hb =>
      ih (rank b) (hk ▸ hr a ha b hb) (w.deps_mem a ha b hb) rfl⟩
    simp [he] at hready

theorem order_perm (w : WellFormed deps nodes) (h : Acyclic deps nodes) :
    (order d deps nodes).Perm nodes :=
  (List.perm_ext_iff_of_nodup (order_nodup w) w.nodup).mpr fun _ =>
    ⟨order_mem w, order_complete w h⟩

/-- The order has the length of the node list exactly when no node lies on a cycle. -/
theorem length_order_iff (w : WellFormed deps nodes) :
    (order d deps nodes).length = nodes.length ↔ Acyclic deps nodes := by
  constructor
  · intro hl
    have hp : (order d deps nodes).Subperm nodes :=
      (order_nodup w).subperm fun a ha => order_mem w ha
    exact (order_topological w).acyclic (order_nodup w) fun a ha =>
      (hp.perm_of_length_le hl.ge).mem_iff.mpr ha
  · exact fun h => (order_perm w h).length_eq

theorem acyclic_of_irrefl (w : WellFormed deps nodes) (h : ∀ a ∈ nodes, a ∉ order d deps nodes →
    ¬ Relation.TransGen (fun x y => y ∈ deps x) a a) : Acyclic deps nodes := by
  obtain ⟨i, he⟩ := inv_order (d := d) w
  have hserved : ∀ a ∈ nodes, a ∈ order d deps nodes := by
    by_contra hc
    simp only [not_forall, exists_prop] at hc
    let r (x y : {a // a ∈ nodes ∧ a ∉ order d deps nodes}) : Prop :=
      Relation.TransGen (fun u v => v ∈ deps u) y.1 x.1
    have : IsTrans _ r := ⟨fun x y z hxy hyz => hyz.trans hxy⟩
    have : Std.Irrefl r := ⟨fun x hx => h x.1 x.2.1 x.2.2 hx⟩
    have : Finite {a // a ∈ nodes ∧ a ∉ order d deps nodes} :=
      (nodes.finite_toSet.subset fun _ ha => ha.1).to_subtype
    obtain ⟨a, ha, ho⟩ := hc
    obtain ⟨m, -, hm⟩ := (Finite.wellFounded_of_trans_of_irrefl r).has_min Set.univ
      ⟨⟨a, ha, ho⟩, trivial⟩
    refine m.2.2 ?_
    by_contra hmo
    have hready := (i.mem_ready m.1).mpr ⟨m.2.1, hmo, fun b hb => by
      by_contra hbo
      exact hm ⟨b, w.deps_mem _ m.2.1 b hb, hbo⟩ trivial (.single hb)⟩
    simp [he] at hready
  exact (order_topological w).acyclic (order_nodup w) hserved

end GiPricing.Kahn
