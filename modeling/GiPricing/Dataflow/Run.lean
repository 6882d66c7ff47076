import GiPricing.Dataflow.Entries
import GiPricing.Dataflow.Store

/-! # Runs of a chain

A run never loses a key. A chain that marks its failures in the store, checked at its end,
runs like the chain that fails at once. Two stores that agree on what a node reads give steps
that both fail or that agree on what it writes for certain.
-/

namespace GiPricing.Dataflow

variable {κ ν : Type*}

/-! ## Stores of entries -/

/-- The store of a list of entries, where a later entry overrides an earlier one. -/
def ofEntries [DecidableEq κ] (l : List (κ × ν)) : Store κ ν := fun k => l.reverse.lookup k

section Entries

variable [DecidableEq κ] {l l' : List (κ × ν)} {k : κ} {v : ν}

theorem ofEntries_isSome_iff : (ofEntries l k).isSome ↔ k ∈ l.map Prod.fst := by
  rw [ofEntries, lookup_isSome_iff, List.map_reverse, List.mem_reverse]

theorem ofEntries_eq_none : ofEntries l k = none ↔ k ∉ l.map Prod.fst := by
  rw [← ofEntries_isSome_iff, Option.not_isSome_iff_eq_none]

theorem ofEntries_eq_some_of_nodup (hn : (l.map Prod.fst).Nodup) :
    ofEntries l k = some v ↔ (k, v) ∈ l := by
  rw [ofEntries, lookup_eq_some_of_nodup (by rw [List.map_reverse]; exact List.nodup_reverse.mpr hn),
    List.mem_reverse]

theorem ofEntries_perm (hn : (l.map Prod.fst).Nodup) (hp : l.Perm l') :
    ofEntries l = ofEntries l' := by
  funext k
  ext v
  rw [ofEntries_eq_some_of_nodup hn,
    ofEntries_eq_some_of_nodup ((hp.map _).nodup_iff.mp hn), hp.mem_iff]

end Entries

namespace Node

variable {n : Node κ ν} {l : List (Node κ ν)} {c c' r : Store κ ν} {k : κ}

theorem merge_isSome (c o : Store κ ν) (k : κ) :
    (merge c o k).isSome ↔ (o k).isSome ∨ (c k).isSome := by
  simp [merge]

theorem run_isSome (h : run l c = some r) (hk : (c k).isSome) : (r k).isSome := by
  induction l generalizing c with
  | nil => rw [← Option.some.inj h]; exact hk
  | cons n l ih =>
    obtain ⟨c₁, hs, hr⟩ := Option.bind_eq_some_iff.mp h
    obtain ⟨o, -, rfl⟩ := step_eq_some.mp hs
    exact ih hr ((merge_isSome c o k).mpr (Or.inr hk))

theorem run_untouched (h : run l c = some r) (hk : ∀ n ∈ l, k ∉ n.writes) : r k = c k := by
  induction l generalizing c with
  | nil => rw [← Option.some.inj h]
  | cons n l ih =>
    obtain ⟨c₁, hs, hr⟩ := Option.bind_eq_some_iff.mp h
    rw [ih hr fun m hm => hk m (List.mem_cons_of_mem _ hm),
      step_untouched hs (hk n List.mem_cons_self)]

/-! ## Failing at once -/

/-- The node that fails where the given one would write a mark. -/
def strict [DecidableEq κ] (n : Node κ ν) (mark : κ) : Node κ ν where
  reads := n.reads
  writes := n.writes \ {mark}
  certain := n.certain \ {mark}
  emit c := (n.emit c).filter fun o => (o mark).isNone
  reads_only c c' h := by rw [n.reads_only c c' h]
  writes_only c o h k hk := by
    obtain ⟨ho, hm⟩ := Option.filter_eq_some_iff.mp h
    by_cases he : k = mark
    · subst he; simpa using hm
    · exact n.writes_only c o ho k fun hw => hk ⟨hw, he⟩
  writes_certain c o h k hk :=
    n.writes_certain c o (Option.filter_eq_some_iff.mp h).1 k hk.1

theorem run_strict [DecidableEq κ] {mark : κ} (l : List (Node κ ν)) (c : Store κ ν)
    (hc : c mark = none) :
    run (l.map (·.strict mark)) c = (run l c).filter fun r => (r mark).isNone := by
  induction l generalizing c with
  | nil => simp [Option.filter, hc]
  | cons n l ih =>
    rw [List.map_cons, run_cons, run_cons]
    cases ho : n.emit c with
    | none => simp [step, strict, ho]
    | some o =>
      have hstep : n.step c = some (merge c o) := step_eq_some.mpr ⟨o, ho, rfl⟩
      cases hm : o mark with
      | none =>
        have hmark : merge c o mark = none := by simp [merge, hm, hc]
        have hs : (n.strict mark).step c = some (merge c o) := by
          simp [step, strict, ho, hm]
        rw [hs, hstep, Option.bind_some, Option.bind_some, ih _ hmark]
      | some v =>
        have hs : (n.strict mark).step c = none := by simp [step, strict, ho, hm]
        rw [hs, hstep, Option.bind_none, Option.bind_some]
        symm
        rw [Option.filter_eq_none_iff]
        intro r hr
        have := run_isSome hr ((merge_isSome c o mark).mpr (Or.inl (by simp [hm])))
        simp [Option.isNone_iff_eq_none, Option.isSome_iff_ne_none.mp this]

/-! ## Steps of stores that agree -/

/-- The position of the node at which a run fails. -/
def stuckAt : List (Node κ ν) → Store κ ν → Option ℕ
  | [], _ => none
  | n :: l, c => match n.step c with
    | none => some 0
    | some c' => (stuckAt l c').map (· + 1)

theorem step_eqOn {K : Set κ} (h : Set.EqOn c c' K) (hr : n.reads ⊆ K) :
    (n.step c = none ∧ n.step c' = none) ∨
      ∃ d d', n.step c = some d ∧ n.step c' = some d' ∧ Set.EqOn d d' (K ∪ n.certain) := by
  have he : n.emit c' = n.emit c := (n.reads_only c c' (h.mono hr)).symm
  cases ho : n.emit c with
  | none => exact Or.inl ⟨by simp [step, ho], by simp [step, he, ho]⟩
  | some o =>
    refine Or.inr ⟨merge c o, merge c' o, by simp [step, ho], by simp [step, he, ho], ?_⟩
    rintro k (hk | hk)
    · simp [merge, h hk]
    · obtain ⟨v, hv⟩ := Option.isSome_iff_exists.mp (n.writes_certain c o ho k hk)
      simp [merge, hv]

end Node

end GiPricing.Dataflow
