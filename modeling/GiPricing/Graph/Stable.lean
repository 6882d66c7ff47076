import GiPricing.Graph.Kahn

/-! # Stable orders

The order that Kahn's algorithm serves from a heap is the one that always takes the ready node of
least key. There is only one, an ordered list is its own, and it restricts to part of the nodes.
-/

namespace GiPricing.Kahn

variable {α β : Type*} {deps : α → List α} {nodes : List α} {key : α → ℕ}

/-- A node that may be served next, after the nodes of a list. -/
def Ready (deps : α → List α) (nodes served : List α) (a : α) : Prop :=
  a ∈ nodes ∧ a ∉ served ∧ ∀ b ∈ deps a, b ∈ served

/-- Each node has the least key of the nodes that were ready. -/
def TakesLeast (key : α → ℕ) (deps : α → List α) (nodes l : List α) : Prop :=
  ∀ p a s, l = p ++ a :: s → ∀ b, Ready deps nodes p b → key a ≤ key b

/-- The nodes, each once and after its dependencies, the least ready one first. -/
structure Stable (key : α → ℕ) (deps : α → List α) (nodes l : List α) : Prop where
  perm : l.Perm nodes
  topological : Topological deps l
  takesLeast : TakesLeast key deps nodes l

theorem TakesLeast.append_singleton {l : List α} {a : α} (h : TakesLeast key deps nodes l)
    (ha : ∀ b, Ready deps nodes l b → key a ≤ key b) : TakesLeast key deps nodes (l ++ [a]) := by
  intro p x s he b hb
  rcases List.eq_nil_or_concat s with rfl | ⟨t, y, rfl⟩
  · obtain ⟨rfl, hx⟩ := List.append_inj' he rfl
    obtain rfl : a = x := by simpa using hx
    exact ha b hb
  · have he' : l ++ [a] = (p ++ x :: t) ++ [y] := by simpa using he
    exact h p x t (List.append_inj' he' rfl).1 b hb

section Served

variable [DecidableEq α]

theorem heap_pop_le {q rest : List α} {a : α} (h : (heap key).pop q = some (a, rest)) :
    ∀ b ∈ q, key a ≤ key b := by
  intro b hb
  obtain ⟨c, hc, he⟩ := Option.map_eq_some_iff.mp h
  obtain ⟨rfl, -⟩ := Prod.mk.inj he
  exact List.le_of_mem_argmin hb hc

theorem step_order {d : Discipline α} (w : WellFormed deps nodes) {s s' : State α}
    (h : step d deps nodes s = some s') :
    ∃ a rest, d.pop s.ready = some (a, rest) ∧ s'.order = s.order ++ [a] := by
  obtain ⟨⟨a, rest⟩, hpop, rfl⟩ := Option.map_eq_some_iff.mp h
  exact ⟨a, rest, hpop, (@foldl_settle _ _ deps _ nodes w.nodup _).1⟩

theorem run_takesLeast (w : WellFormed deps nodes) {n : ℕ} : ∀ {s : State α}, Inv deps nodes s →
    TakesLeast key deps nodes s.order →
    TakesLeast key deps nodes (run (heap key) deps nodes n s).order := by
  induction n with
  | zero => exact fun _ h => h
  | succ n ih =>
    intro s i h
    rw [run]
    cases hs : step (heap key) deps nodes s with
    | none => exact h
    | some s' =>
      obtain ⟨a, rest, hpop, horder⟩ := step_order w hs
      apply ih (i.step w hs).1
      rw [horder]
      exact h.append_singleton fun b hb => heap_pop_le hpop b ((i.mem_ready b).mpr hb)

theorem order_takesLeast (w : WellFormed deps nodes) :
    TakesLeast key deps nodes (order (heap key) deps nodes) :=
  run_takesLeast w (inv_start w) fun p a s h => by simp [start] at h

theorem order_stable (w : WellFormed deps nodes) (h : Acyclic deps nodes) :
    Stable key deps nodes (order (heap key) deps nodes) where
  perm := order_perm w h
  topological := order_topological w
  takesLeast := order_takesLeast w

end Served

/-! ## The only one -/

namespace Stable

variable {l m : List α}

theorem nodup (h : Stable key deps nodes l) (hn : nodes.Nodup) : l.Nodup := h.perm.nodup_iff.mpr hn

theorem ready (h : Stable key deps nodes l) (hn : nodes.Nodup) {p s : List α} {a : α}
    (hl : l = p ++ a :: s) : Ready deps nodes p a := by
  refine ⟨h.perm.mem_iff.mp (by simp [hl]), fun hap => ?_, h.topological p a s hl⟩
  have hnodup := h.nodup hn
  rw [hl] at hnodup
  exact List.disjoint_of_nodup_append hnodup hap List.mem_cons_self

theorem suffix_unique (hn : nodes.Nodup) (hkey : Set.InjOn key {a | a ∈ nodes}) :
    ∀ (s t p : List α), Stable key deps nodes (p ++ s) → Stable key deps nodes (p ++ t) → s = t := by
  intro s
  induction s with
  | nil =>
    intro t p hs ht
    have hlen := hs.perm.length_eq.trans ht.perm.length_eq.symm
    rw [List.length_append, List.length_append] at hlen
    exact (List.length_eq_zero_iff.mp (by simpa using hlen.symm)).symm
  | cons a s ih =>
    intro t p hs ht
    cases t with
    | nil =>
      have hlen := hs.perm.length_eq.trans ht.perm.length_eq.symm
      simp at hlen
    | cons b t =>
      have ha := hs.ready hn rfl
      have hb := ht.ready hn rfl
      obtain rfl : a = b := hkey ha.1 hb.1
        (le_antisymm (hs.takesLeast p a s rfl b hb) (ht.takesLeast p b t rfl a ha))
      rw [ih t (p ++ [a]) (by simpa using hs) (by simpa using ht)]

theorem unique (hn : nodes.Nodup) (hkey : Set.InjOn key {a | a ∈ nodes})
    (hl : Stable key deps nodes l) (hm : Stable key deps nodes m) : l = m :=
  suffix_unique hn hkey l m [] hl hm

theorem self (h : Topological deps nodes) (hkey : nodes.Pairwise fun a b => key a ≤ key b) :
    Stable key deps nodes nodes where
  perm := .refl _
  topological := h
  takesLeast := by
    intro p a s hl b hb
    have hmem : b ∈ p ++ a :: s := hl ▸ hb.1
    rw [hl, List.pairwise_append] at hkey
    obtain rfl | hbs := List.mem_cons.mp ((List.mem_append.mp hmem).resolve_left hb.2.1)
    · exact le_rfl
    · exact List.rel_of_pairwise_cons hkey.2.1 hbs

/-- A stable order under other names. -/
theorem map {f : α → β} {key' : β → ℕ} {deps' : β → List β} (h : Stable key deps nodes l)
    (hinj : Set.InjOn f {a | a ∈ nodes}) (hdeps : ∀ a ∈ nodes, ∀ b ∈ deps a, b ∈ nodes)
    (hmem : ∀ a ∈ nodes, ∀ b ∈ nodes, f b ∈ deps' (f a) ↔ b ∈ deps a)
    (himage : ∀ a ∈ nodes, ∀ y ∈ deps' (f a), ∃ b ∈ nodes, f b = y)
    (hkey : ∀ a ∈ nodes, ∀ b ∈ nodes, key a ≤ key b → key' (f a) ≤ key' (f b)) :
    Stable key' deps' (nodes.map f) (l.map f) := by
  have hl : ∀ {a}, a ∈ l ↔ a ∈ nodes := h.perm.mem_iff
  refine ⟨h.perm.map f, ?_, ?_⟩
  · intro p y s he z hz
    obtain ⟨p, s', rfl, rfl, hs'⟩ := List.map_eq_append_iff.mp he
    obtain ⟨a, s, rfl, rfl, rfl⟩ := List.map_eq_cons_iff.mp hs'
    have ha : a ∈ nodes := hl.mp (by simp)
    obtain ⟨b, hb, rfl⟩ := himage a ha z hz
    exact List.mem_map_of_mem (h.topological p a s rfl b ((hmem a ha b hb).mp hz))
  · intro p y s he z hz
    obtain ⟨p, s', rfl, rfl, hs'⟩ := List.map_eq_append_iff.mp he
    obtain ⟨a, s, rfl, rfl, rfl⟩ := List.map_eq_cons_iff.mp hs'
    obtain ⟨hzn, hzp, hzd⟩ := hz
    obtain ⟨b, hb, rfl⟩ := List.mem_map.mp hzn
    have ha : a ∈ nodes := hl.mp (by simp)
    refine hkey a ha b hb (h.takesLeast p a s rfl b ⟨hb, fun hbp => hzp (List.mem_map_of_mem hbp),
      fun c hc => ?_⟩)
    have hcn := hdeps b hb c hc
    obtain ⟨c', hc', he⟩ := List.mem_map.mp (hzd (f c) ((hmem b hb c hcn).mpr hc))
    obtain rfl : c' = c := hinj (hl.mp (by simp [hc'])) hcn he
    exact hc'

/-- A stable order of all nodes is one of some, where no node waits for one that is left out and
comes later or waits itself. -/
theorem filter (h : Stable key deps nodes l) {kept : α → Bool} {deps' : α → List α}
    (hmem : ∀ a ∈ nodes, kept a → ∀ b, b ∈ deps' a ↔ b ∈ deps a ∧ kept b)
    (hleft : ∀ a ∈ nodes, ∀ b ∈ deps a, kept b = false →
      b ∈ nodes ∧ deps b = [] ∧ key b < key a) :
    Stable key deps' (nodes.filter kept) (l.filter kept) := by
  have hl : ∀ {a}, a ∈ l ↔ a ∈ nodes := h.perm.mem_iff
  refine ⟨h.perm.filter _, ?_, ?_⟩
  · intro p a s he b hb
    obtain ⟨q, r, rfl, rfl, hr⟩ := List.filter_eq_append_iff.mp he
    obtain ⟨r₁, r₂, rfl, hr₁, hka, rfl⟩ := List.filter_eq_cons_iff.mp hr
    obtain ⟨hd, hkb⟩ := (hmem a (hl.mp (by simp)) hka b).mp hb
    have hq := h.topological (q ++ r₁) a r₂ (by simp) b hd
    rw [List.mem_filter]
    refine ⟨(List.mem_append.mp hq).resolve_right fun hbr => hr₁ b hbr hkb, hkb⟩
  · intro p a s he b hb
    obtain ⟨q, r, rfl, rfl, hr⟩ := List.filter_eq_append_iff.mp he
    obtain ⟨r₁, r₂, rfl, hr₁, hka, rfl⟩ := List.filter_eq_cons_iff.mp hr
    obtain ⟨hbn, hbp, hbd⟩ := hb
    obtain ⟨hbn, hkb⟩ := List.mem_filter.mp hbn
    have hnot : b ∉ q ++ r₁ := by
      intro hbq
      obtain hbq | hbr := List.mem_append.mp hbq
      · exact hbp (List.mem_filter.mpr ⟨hbq, hkb⟩)
      · exact hr₁ b hbr hkb
    by_cases hready : ∀ c ∈ deps b, c ∈ q ++ r₁
    · exact h.takesLeast (q ++ r₁) a r₂ (by simp) b ⟨hbn, hnot, hready⟩
    · push Not at hready
      obtain ⟨c, hc, hcq⟩ := hready
      -- What is waited for is left out: it is ready, and its key is below.
      have hkc : kept c = false := by
        by_contra hkc
        rw [Bool.not_eq_false] at hkc
        exact hcq (List.mem_append_left _
          (List.mem_filter.mp (hbd c ((hmem b hbn hkb c).mpr ⟨hc, hkc⟩))).1)
      obtain ⟨hcn, hnone, hlt⟩ := hleft b hbn c hc hkc
      have hle := h.takesLeast (q ++ r₁) a r₂ (by simp) c ⟨hcn, hcq, by simp [hnone]⟩
      omega

end Stable

/-! ## Served unchanged -/

section Unchanged

variable [DecidableEq α]

theorem order_eq_of_stable (w : WellFormed deps nodes) (hkey : Set.InjOn key {a | a ∈ nodes})
    {l : List α} (h : Stable key deps nodes l) : order (heap key) deps nodes = l := by
  have hacyclic : Acyclic deps nodes := h.topological.acyclic (h.nodup w.nodup)
    fun a ha => h.perm.mem_iff.mpr ha
  exact Stable.unique w.nodup hkey (order_stable w hacyclic) h

theorem acyclic_iff (w : WellFormed deps nodes) : Acyclic deps nodes ↔
    ∀ a ∈ nodes, ¬ Relation.TransGen (fun x y => y ∈ deps x) a a := by
  constructor
  · rintro ⟨rank, hrank⟩ a ha hcycle
    have hdown : ∀ b, Relation.TransGen (fun x y => y ∈ deps x) a b →
        b ∈ nodes ∧ rank b < rank a := by
      intro b hb
      induction hb with
      | single h => exact ⟨w.deps_mem a ha _ h, hrank a ha _ h⟩
      | tail _ h ih => exact ⟨w.deps_mem _ ih.1 _ h, (hrank _ ih.1 _ h).trans ih.2⟩
    exact absurd (hdown a hcycle).2 (lt_irrefl _)
  · intro h
    exact acyclic_of_irrefl (d := lifo) w fun a ha _ => h a ha

end Unchanged

end GiPricing.Kahn
