import Mathlib
import GiPricing.Audit.Json

/-! # The audit chain

Each workspace has one chain of events, in which an event carries the hash of its content with the
hash of the event before it. The verification of a chain reads the rows of the workspace by their
sequence numbers.
-/

namespace GiPricing.Audit

/-- The hashed fields of an event. -/
structure AuditEventCore where
  id : ℕ
  workspace_id : ℕ
  at_ : ℤ
  actor : String
  source : String
  action : String
  entity_ref : String
  before : Option Json := none
  after : Option Json := none
  justification : Option String := none
  trace_id : Option String := none
  job_id : Option ℕ := none

def AuditEventCore.stored (order : List (String × Json) → List (String × Json))
    (c : AuditEventCore) : AuditEventCore :=
  { c with before := c.before.map (Json.stored order), after := c.after.map (Json.stored order) }

def AuditEventCore.canonical (c : AuditEventCore) : AuditEventCore :=
  { c with before := c.before.map Json.canonical, after := c.after.map Json.canonical }

/-- Both states of an event are stable. -/
def AuditEventCore.Stable (c : AuditEventCore) : Prop :=
  (∀ j ∈ c.before, j.Stable) ∧ ∀ j ∈ c.after, j.Stable

variable {H : Type}

structure AuditEventRow (H : Type) where
  core : AuditEventCore
  prev_event_hash : Option H
  event_hash : H
  sequence : ℕ

abbrev AuditTable (H : Type) := List (AuditEventRow H)

section Chain

variable (hash : AuditEventCore × Option H → H)

/-- `compute_event_hash`. -/
def computeEventHash (core : AuditEventCore) (prev : Option H) : H := hash (core.canonical, prev)

def workspaceRows (table : AuditTable H) (workspace : ℕ) : List (AuditEventRow H) :=
  table.filter fun r => r.core.workspace_id = workspace

/-- `record`: the event appended after the row with the highest sequence of its workspace. -/
def record (table : AuditTable H) (core : AuditEventCore) : AuditTable H :=
  let head := (workspaceRows table core.workspace_id).argmax AuditEventRow.sequence
  let prev := head.map AuditEventRow.event_hash
  table ++ [⟨core, prev, computeEventHash hash core prev, (head.map (·.sequence + 1)).getD 1⟩]

/-- A run of `record`, in the order in which the appends are serialised. -/
def recordAll (calls : List AuditEventCore) : AuditTable H := calls.foldl (record hash) []

inductive ChainBroken
  | sequence (found : ℕ)
  | predecessor (sequence : ℕ)
  | content (sequence : ℕ)
  deriving DecidableEq, Repr

variable [DecidableEq H]

/-- The rows of a chain from an expected predecessor and sequence on; the count checked. -/
def verifyFrom : Option H → ℕ → List (AuditEventRow H) → Except ChainBroken ℕ
  | _, _, [] => .ok 0
  | expectedPrev, expectedSequence, row :: rows =>
    if row.sequence ≠ expectedSequence then .error (.sequence row.sequence)
    else if row.prev_event_hash ≠ expectedPrev then .error (.predecessor row.sequence)
    else if computeEventHash hash row.core row.prev_event_hash ≠ row.event_hash then
      .error (.content row.sequence)
    else (verifyFrom (some row.event_hash) (expectedSequence + 1) rows).map (· + 1)

def chainRows (table : AuditTable H) (workspace : ℕ) : List (AuditEventRow H) :=
  (workspaceRows table workspace).insertionSort fun a b => a.sequence ≤ b.sequence

/-- `verify_chain`. -/
def verifyChain (table : AuditTable H) (workspace : ℕ) : Except ChainBroken ℕ :=
  verifyFrom hash none 1 (chainRows table workspace)

end Chain

/-! ## Chains -/

def AuditEventRow.seen (r : AuditEventRow H) : AuditEventCore × Option H × H × ℕ :=
  (r.core.canonical, r.prev_event_hash, r.event_hash, r.sequence)

/-- A chain from an expected predecessor and sequence on. -/
inductive Linked (hash : AuditEventCore × Option H → H) :
    Option H → ℕ → List (AuditEventRow H) → Prop
  | nil {prev : Option H} {n : ℕ} : Linked hash prev n []
  | cons {core : AuditEventCore} {prev : Option H} {n : ℕ} {rows : List (AuditEventRow H)} :
      Linked hash (some (computeEventHash hash core prev)) (n + 1) rows →
      Linked hash prev n (⟨core, prev, computeEventHash hash core prev, n⟩ :: rows)

variable {hash : AuditEventCore × Option H → H}

theorem verifyFrom_eq_ok [DecidableEq H] {prev : Option H} {n k : ℕ}
    {rows : List (AuditEventRow H)} :
    verifyFrom hash prev n rows = .ok k ↔ Linked hash prev n rows ∧ k = rows.length := by
  induction rows generalizing prev n k with
  | nil =>
    simp only [verifyFrom, Except.ok.injEq, List.length_nil]
    exact ⟨fun h => ⟨.nil, h.symm⟩, fun h => h.2.symm⟩
  | cons row rows ih =>
    constructor
    · intro h
      simp only [verifyFrom] at h
      split_ifs at h with hs hp hc
      rw [not_not] at hs hp hc
      cases hrest : verifyFrom hash (some row.event_hash) (n + 1) rows with
      | error e =>
        rw [hrest] at h
        cases h
      | ok m =>
        rw [hrest] at h
        obtain ⟨hlinked, rfl⟩ := ih.mp hrest
        obtain ⟨core, prev', eventHash, sequence⟩ := row
        dsimp only at hs hp hc hlinked
        subst hs hp hc
        refine ⟨.cons hlinked, ?_⟩
        exact (Except.ok.inj h).symm
    · rintro ⟨hlinked, rfl⟩
      cases hlinked with
      | cons hrest =>
        have hok := ih.mpr ⟨hrest, rfl⟩
        simp only [verifyFrom, ne_eq, not_true_eq_false, if_false, hok]
        rfl

theorem Linked.le_sequence {prev : Option H} {n : ℕ} {rows : List (AuditEventRow H)}
    (h : Linked hash prev n rows) : ∀ r ∈ rows, n ≤ r.sequence ∧ r.sequence < n + rows.length := by
  induction h with
  | nil => simp
  | cons _ ih =>
    intro r hr
    rw [List.length_cons]
    rcases List.mem_cons.mp hr with rfl | hr
    · dsimp only
      omega
    · have := ih r hr
      omega

theorem Linked.pairwise {prev : Option H} {n : ℕ} {rows : List (AuditEventRow H)}
    (h : Linked hash prev n rows) : rows.Pairwise fun a b => a.sequence ≤ b.sequence := by
  induction h with
  | nil => exact .nil
  | cons hrest ih =>
    refine .cons (fun r hr => ?_) ih
    have := (hrest.le_sequence r hr).1
    dsimp only
    omega

theorem Linked.append {prev : Option H} {n : ℕ} {rows : List (AuditEventRow H)}
    (h : Linked hash prev n rows) (core : AuditEventCore) :
    Linked hash prev n (rows ++ [⟨core, (rows.getLast?.map AuditEventRow.event_hash).or prev,
      computeEventHash hash core ((rows.getLast?.map AuditEventRow.event_hash).or prev),
      n + rows.length⟩]) := by
  induction h with
  | nil => exact .cons .nil
  | @cons c prev n rows hrest ih =>
    rw [List.cons_append]
    refine .cons ?_
    have hlast : ((⟨c, prev, computeEventHash hash c prev, n⟩ :: rows).getLast?.map
        AuditEventRow.event_hash).or prev =
          (rows.getLast?.map AuditEventRow.event_hash).or
            (some (computeEventHash hash c prev)) := by
      cases rows with
      | nil => rfl
      | cons r rows =>
        rw [List.getLast?_cons_cons, List.getLast?_eq_some_getLast (List.cons_ne_nil r rows)]
        rfl
    rw [hlast, List.length_cons, show n + (rows.length + 1) = n + 1 + rows.length by omega]
    exact ih

/-- The head of a chain is its last row. -/
theorem Linked.argmax {prev : Option H} {n : ℕ} {rows : List (AuditEventRow H)}
    (h : Linked hash prev n rows) : rows.argmax AuditEventRow.sequence = rows.getLast? ∧
      ∀ r ∈ rows.getLast?, r.sequence + 1 = n + rows.length := by
  induction h with
  | nil => exact ⟨rfl, by simp⟩
  | @cons c prev n rows hrest ih =>
    obtain ⟨hmax, hlen⟩ := ih
    cases rows with
    | nil => exact ⟨rfl, by simp⟩
    | cons r rows =>
      have hle := (hrest.le_sequence _ (List.getLast_mem (List.cons_ne_nil r rows))).1
      have hlast := List.getLast?_eq_some_getLast (List.cons_ne_nil r rows)
      rw [hlast] at hmax hlen
      constructor
      · rw [List.argmax_cons, hmax, List.getLast?_cons_cons, hlast]
        have hlt : n < ((r :: rows).getLast (List.cons_ne_nil r rows)).sequence := by omega
        simp only [hlt, if_true]
      · rw [List.getLast?_cons_cons, hlast]
        intro e he
        have hsequence := hlen e he
        simp only [List.length_cons] at hsequence ⊢
        omega

theorem linked_record {table : AuditTable H} {core : AuditEventCore}
    (h : ∀ w, Linked hash none 1 (workspaceRows table w)) (w : ℕ) :
    Linked hash none 1 (workspaceRows (record hash table core) w) := by
  unfold record
  rw [workspaceRows, List.filter_append]
  by_cases hw : core.workspace_id = w
  · subst hw
    obtain ⟨hmax, hlen⟩ := (h core.workspace_id).argmax
    rw [List.filter_cons_of_pos (by simp), List.filter_nil, hmax]
    have happend := (h core.workspace_id).append core
    have hsequence : (((workspaceRows table core.workspace_id).getLast?).map
        (·.sequence + 1)).getD 1 = 1 + (workspaceRows table core.workspace_id).length := by
      cases hl : (workspaceRows table core.workspace_id).getLast? with
      | none =>
        rw [List.getLast?_eq_none_iff.mp hl]
        rfl
      | some r => exact hlen r hl
    rw [Option.or_none] at happend
    rw [hsequence]
    exact happend
  · rw [List.filter_cons_of_neg (by simpa using hw), List.filter_nil, List.append_nil]
    exact h w

theorem linked_recordAll (calls : List AuditEventCore) (w : ℕ) :
    Linked hash none 1 (workspaceRows (recordAll hash calls) w) := by
  have hrun : ∀ (calls : List AuditEventCore) (table : AuditTable H),
      (∀ w, Linked hash none 1 (workspaceRows table w)) →
        ∀ w, Linked hash none 1 (workspaceRows (calls.foldl (record hash) table) w) := by
    intro calls
    induction calls with
    | nil => exact fun table h => h
    | cons c calls ih => exact fun table h => ih _ (linked_record h)
  exact hrun calls [] (fun _ => .nil) w

/-! ## Verification of runs -/

section Verification

variable [DecidableEq H]

omit [DecidableEq H] in
theorem chainRows_eq {table : AuditTable H} {w : ℕ}
    (h : (workspaceRows table w).Pairwise fun a b => a.sequence ≤ b.sequence) :
    chainRows table w = workspaceRows table w :=
  h.insertionSort_eq

def storedTable (order : List (String × Json) → List (String × Json)) (table : AuditTable H) :
    AuditTable H :=
  table.map fun r => { r with core := r.core.stored order }

variable {order : List (String × Json) → List (String × Json)}

theorem canonical_stored_core (horder : ∀ l, (order l).Perm l) {c : AuditEventCore}
    (h : c.Stable) : (c.stored order).canonical = c.canonical := by
  have hstate : ∀ j : Option Json, (∀ k ∈ j, k.Stable) →
      (j.map (Json.stored order)).map Json.canonical = j.map Json.canonical := by
    intro j hj
    cases j with
    | none => rfl
    | some k =>
      rw [Option.map_some, Option.map_some, Option.map_some,
        canonical_stored horder k (hj k rfl)]
  rw [AuditEventCore.canonical, AuditEventCore.canonical]
  simp only [AuditEventCore.stored, hstate c.before h.1, hstate c.after h.2]

omit [DecidableEq H] in
/-- A chain of stable events is a chain after the column. -/
theorem Linked.stored (horder : ∀ l, (order l).Perm l) {prev : Option H} {n : ℕ}
    {rows : List (AuditEventRow H)} (h : Linked hash prev n rows)
    (hstable : ∀ r ∈ rows, r.core.Stable) : Linked hash prev n (storedTable order rows) := by
  induction h with
  | nil => exact .nil
  | @cons c prev n rows hrest ih =>
    have hsame : computeEventHash hash (c.stored order) prev = computeEventHash hash c prev := by
      rw [computeEventHash, canonical_stored_core horder (hstable _ List.mem_cons_self),
        computeEventHash]
    have htail := ih fun r hr => hstable r (List.mem_cons_of_mem _ hr)
    rw [← hsame] at htail
    have hcons := Linked.cons htail
    rw [hsame] at hcons
    exact hcons

omit [DecidableEq H] in
theorem workspaceRows_stored (table : AuditTable H) (w : ℕ) :
    workspaceRows (storedTable order table) w = storedTable order (workspaceRows table w) := by
  rw [workspaceRows, storedTable, List.filter_map]
  rfl

omit [DecidableEq H] in
theorem mem_recordAll {calls : List AuditEventCore} {r : AuditEventRow H}
    (h : r ∈ recordAll hash calls) : r.core ∈ calls := by
  have hrun : ∀ (calls : List AuditEventCore) (table : AuditTable H),
      r ∈ calls.foldl (record hash) table → r ∈ table ∨ r.core ∈ calls := by
    intro calls
    induction calls with
    | nil => exact fun table h => .inl h
    | cons c calls ih =>
      intro table h
      rcases ih _ h with h | h
      · rcases List.mem_append.mp h with h | h
        · exact .inl h
        · obtain rfl := List.mem_singleton.mp h
          exact .inr List.mem_cons_self
      · exact .inr (List.mem_cons_of_mem _ h)
  exact (hrun calls [] h).resolve_left (by simp)

theorem verifyChain_recordAll (horder : ∀ l, (order l).Perm l) {calls : List AuditEventCore}
    (hstable : ∀ c ∈ calls, c.Stable) (w : ℕ) :
    verifyChain hash (storedTable order (recordAll hash calls)) w =
      .ok (workspaceRows (recordAll hash calls) w).length := by
  have hrecorded : Linked hash none 1 (workspaceRows (recordAll hash calls) w) :=
    linked_recordAll calls w
  have hlinked := hrecorded.stored horder fun r hr =>
    hstable _ (mem_recordAll (List.mem_of_mem_filter hr))
  rw [← workspaceRows_stored] at hlinked
  rw [verifyChain, chainRows_eq hlinked.pairwise, verifyFrom_eq_ok]
  refine ⟨hlinked, ?_⟩
  rw [workspaceRows_stored, storedTable, List.length_map]

/-! ## Tampering -/

/-- No stored hash was computed anew: it is one of the hashes of the chain, or it is not the hash of
the row it stands in. -/
def NotRecomputed (hash : AuditEventCore × Option H → H) (rows tampered : List (AuditEventRow H)) :
    Prop :=
  ∀ t ∈ tampered, (∃ r ∈ rows, t.event_hash = r.event_hash) ∨
    t.event_hash ≠ computeEventHash hash t.core t.prev_event_hash

omit [DecidableEq H] in
theorem Linked.hash_eq {prev : Option H} {n : ℕ} {rows : List (AuditEventRow H)}
    (h : Linked hash prev n rows) :
    ∀ r ∈ rows, r.event_hash = computeEventHash hash r.core r.prev_event_hash := by
  induction h with
  | nil => simp
  | cons _ ih =>
    intro r hr
    rcases List.mem_cons.mp hr with rfl | hr
    · rfl
    · exact ih r hr

omit [DecidableEq H] in
theorem Linked.prev_cases {prev : Option H} {n : ℕ} {rows : List (AuditEventRow H)}
    (h : Linked hash prev n rows) : ∀ r ∈ rows, r.prev_event_hash = prev ∧ rows.head? = some r ∨
      ∃ e ∈ rows, r.prev_event_hash = some e.event_hash ∧ e.sequence + 1 = r.sequence := by
  induction h with
  | nil => simp
  | @cons c prev n rows hrest ih =>
    intro r hr
    rcases List.mem_cons.mp hr with rfl | hr
    · exact .inl ⟨rfl, rfl⟩
    · rcases ih r hr with ⟨hp, hhead⟩ | ⟨e, he, hp, hs⟩
      · refine .inr ⟨_, List.mem_cons_self, hp, ?_⟩
        cases hrest with
        | nil => simp at hr
        | cons _ =>
          obtain rfl := Option.some.inj hhead
          rfl
      · exact .inr ⟨e, List.mem_cons_of_mem _ he, hp, hs⟩

omit [DecidableEq H] in
/-- Two chains that share the hashes of one of them: the other begins it. -/
theorem Linked.seen_prefix (hinj : Function.Injective hash) {prev : Option H} {n : ℕ}
    {tampered rows : List (AuditEventRow H)} (ht : Linked hash prev n tampered)
    (h : Linked hash prev n rows)
    (hmem : ∀ t ∈ tampered, ∃ r ∈ rows, t.event_hash = r.event_hash)
    (hprev : ∀ r ∈ rows, some r.event_hash ≠ prev)
    (hnodup : (rows.map AuditEventRow.event_hash).Nodup) :
    tampered.map AuditEventRow.seen <+: rows.map AuditEventRow.seen := by
  induction ht generalizing rows with
  | nil => exact List.nil_prefix
  | @cons c prev n ts htail ih =>
    obtain ⟨r, hr, hsame⟩ := hmem _ List.mem_cons_self
    have hhash := h.hash_eq r hr
    have heq : (c.canonical, prev) = (r.core.canonical, r.prev_event_hash) :=
      hinj (show computeEventHash hash c prev = computeEventHash hash r.core r.prev_event_hash from
        hsame.trans hhash)
    obtain ⟨hcore, hp⟩ := Prod.mk.inj heq
    -- the row it shares its hash with has the expected predecessor, so it is the first one
    rcases h.prev_cases r hr with ⟨-, hhead⟩ | ⟨e, he, hpe, -⟩
    · cases h with
      | nil => simp at hr
      | @cons c' _ _ rest hrest =>
        obtain rfl := Option.some.inj hhead
        dsimp only at hsame hcore
        have hnotMem := (List.nodup_cons.mp hnodup).1
        have htail' := htail
        have hts : ∀ t ∈ ts, ∃ r ∈ rest, t.event_hash = r.event_hash := by
          intro t ht'
          obtain ⟨r', hr', hh⟩ := hmem t (List.mem_cons_of_mem _ ht')
          rcases List.mem_cons.mp hr' with rfl | hr'
          · -- a later row with the hash of the first would have the first's predecessor
            exfalso
            dsimp only at hh
            have hth := htail.hash_eq t ht'
            have hpt : (t.core.canonical, t.prev_event_hash) = (c'.canonical, prev) :=
              hinj (show computeEventHash hash t.core t.prev_event_hash =
                computeEventHash hash c' prev from hth.symm.trans hh)
            obtain ⟨-, hpt⟩ := Prod.mk.inj hpt
            rcases htail.prev_cases t ht' with ⟨hp', -⟩ | ⟨e, he, hpe, -⟩
            · rw [hpt, hsame] at hp'
              exact hprev _ List.mem_cons_self hp'.symm
            · obtain ⟨e', he', hhe⟩ := hmem e (List.mem_cons_of_mem _ he)
              rw [hpt, hhe] at hpe
              exact hprev e' he' hpe.symm
          · exact ⟨r', hr', hh⟩
        have hrest' : Linked hash (some (computeEventHash hash c prev)) (n + 1) rest :=
          hsame ▸ hrest
        have hprefix := ih hrest' hts (fun r' hr' => ?_) (List.nodup_cons.mp hnodup).2
        · rw [List.map_cons, List.map_cons]
          have hseen : AuditEventRow.seen (⟨c, prev, computeEventHash hash c prev, n⟩ :
              AuditEventRow H) = AuditEventRow.seen
                ⟨c', prev, computeEventHash hash c' prev, n⟩ := by
            simp only [AuditEventRow.seen, hcore, hsame]
          rw [hseen]
          exact List.prefix_cons_inj _ |>.mpr hprefix
        · rw [hsame]
          intro heq'
          exact hnotMem (List.mem_map.mpr ⟨r', hr', Option.some.inj heq'⟩)
    · exact absurd (by rw [hp, hpe]) (hprev e he)

omit [DecidableEq H] in
theorem Linked.sequence_nodup {prev : Option H} {n : ℕ} {rows : List (AuditEventRow H)}
    (h : Linked hash prev n rows) : (rows.map AuditEventRow.sequence).Nodup := by
  induction h with
  | nil => exact List.nodup_nil
  | cons hrest ih =>
    refine List.nodup_cons.mpr ⟨fun hm => ?_, ih⟩
    obtain ⟨r, hr, hs⟩ := List.mem_map.mp hm
    have hle := (hrest.le_sequence r hr).1
    dsimp only at hs
    omega

omit [DecidableEq H] in
theorem Linked.sequence_eq (hinj : Function.Injective hash) {n : ℕ} {rows : List (AuditEventRow H)}
    (h : Linked hash none n rows) : ∀ k, ∀ r ∈ rows, ∀ e ∈ rows, r.sequence = k →
      r.event_hash = e.event_hash → r.sequence = e.sequence := by
  intro k
  induction k using Nat.strong_induction_on with
  | _ k ih =>
    intro r hr e he hk hsame
    have hval : (r.core.canonical, r.prev_event_hash) = (e.core.canonical, e.prev_event_hash) :=
      hinj (show computeEventHash hash r.core r.prev_event_hash =
        computeEventHash hash e.core e.prev_event_hash from
          (h.hash_eq r hr).symm.trans (hsame.trans (h.hash_eq e he)))
    obtain ⟨-, hprev⟩ := Prod.mk.inj hval
    rcases h.prev_cases r hr with ⟨hr0, hrhead⟩ | ⟨r', hr', hrp, hrs⟩ <;>
      rcases h.prev_cases e he with ⟨he0, hehead⟩ | ⟨e', he', hep, hes⟩
    · rw [hrhead] at hehead
      rw [Option.some.inj hehead]
    · rw [← hprev, hr0] at hep
      cases hep
    · rw [hprev, he0] at hrp
      cases hrp
    · rw [hrp, hep] at hprev
      have := ih r'.sequence (by omega) r' hr' e' he' rfl (Option.some.inj hprev)
      omega

omit [DecidableEq H] in
theorem Linked.hash_nodup (hinj : Function.Injective hash) {n : ℕ} {rows : List (AuditEventRow H)}
    (h : Linked hash none n rows) : (rows.map AuditEventRow.event_hash).Nodup := by
  refine List.Nodup.map_on (fun r hr e he hsame => ?_) h.sequence_nodup.of_map
  exact List.inj_on_of_nodup_map h.sequence_nodup hr he (h.sequence_eq hinj _ r hr e he rfl hsame)

omit [DecidableEq H] in
theorem Linked.of_seen {prev : Option H} {n : ℕ} {rows tampered : List (AuditEventRow H)}
    (h : Linked hash prev n rows)
    (hseen : tampered.map AuditEventRow.seen <+: rows.map AuditEventRow.seen) :
    Linked hash prev n tampered := by
  induction h generalizing tampered with
  | nil =>
    have hnil := List.prefix_nil.mp hseen
    rw [List.map_eq_nil_iff.mp hnil]
    exact .nil
  | @cons c prev n rest hrest ih =>
    cases tampered with
    | nil => exact .nil
    | cons t ts =>
      rw [List.map_cons, List.map_cons, List.cons_prefix_cons] at hseen
      obtain ⟨ht, hts⟩ := hseen
      obtain ⟨core, prev', eventHash, sequence⟩ := t
      simp only [AuditEventRow.seen, Prod.mk.injEq] at ht
      obtain ⟨hcore, rfl, rfl, rfl⟩ := ht
      have hsame : computeEventHash hash c prev' = computeEventHash hash core prev' := by
        rw [computeEventHash, computeEventHash, hcore]
      have htail := ih hts
      rw [hsame] at htail ⊢
      exact .cons htail

theorem verifyChain_tampered_iff (hinj : Function.Injective hash) {rows : List (AuditEventRow H)}
    (h : Linked hash none 1 rows) {tampered : AuditTable H} {w : ℕ}
    (hnot : NotRecomputed hash rows (workspaceRows tampered w)) :
    (∃ n, verifyChain hash tampered w = .ok n) ↔
      (chainRows tampered w).map AuditEventRow.seen <+: rows.map AuditEventRow.seen := by
  constructor
  · rintro ⟨n, hok⟩
    obtain ⟨hlinked, -⟩ := verifyFrom_eq_ok.mp hok
    refine hlinked.seen_prefix hinj h (fun t ht => ?_) (fun r _ => Option.some_ne_none _)
      (h.hash_nodup hinj)
    have hmem : t ∈ workspaceRows tampered w := (List.mem_insertionSort _).mp ht
    exact (hnot t hmem).resolve_right fun hne => hne (hlinked.hash_eq t ht)
  · intro hseen
    exact ⟨_, verifyFrom_eq_ok.mpr ⟨h.of_seen hseen, rfl⟩⟩

/-- In every run of records of stable events each chain verifies after the column, and rows that
were tampered with, their hashes not computed anew, are accepted exactly when what is left begins
the chain: the removal of its last rows is what verification does not see. -/
theorem verifyChain_run (hinj : Function.Injective hash) (horder : ∀ l, (order l).Perm l)
    (calls : List AuditEventCore) (hstable : ∀ c ∈ calls, c.Stable) (w : ℕ) :
    let rows := workspaceRows (recordAll hash calls) w
    verifyChain hash (storedTable order (recordAll hash calls)) w = .ok rows.length ∧
      ∀ tampered : AuditTable H, NotRecomputed hash rows (workspaceRows tampered w) →
        ((∃ e, verifyChain hash tampered w = .error e) ↔
          ¬ (chainRows tampered w).map AuditEventRow.seen <+: rows.map AuditEventRow.seen) := by
  refine ⟨verifyChain_recordAll horder hstable w, fun tampered hnot => ?_⟩
  rw [← verifyChain_tampered_iff hinj (linked_recordAll calls w) hnot]
  cases verifyChain hash tampered w with
  | error e => simp
  | ok n => simp

end Verification

/-! ## Two defects -/

/-- A hash of no two payloads: the payloads of a chain themselves. -/
inductive ChainHash
  | first (core : AuditEventCore)
  | next (core : AuditEventCore) (prev : ChainHash)

def ChainHash.ofPayload : AuditEventCore × Option ChainHash → ChainHash
  | (core, none) => .first core
  | (core, some prev) => .next core prev

theorem ChainHash.ofPayload_injective : Function.Injective ChainHash.ofPayload := by
  rintro ⟨a, _ | p⟩ ⟨b, _ | q⟩ h
  · rw [ChainHash.first.inj h]
  · cases h
  · cases h
  · obtain ⟨rfl, rfl⟩ := ChainHash.next.inj h
    rfl

noncomputable instance : DecidableEq ChainHash := Classical.decEq _

/-- An event over one float. -/
def floatEvent (x : PyFloat) : AuditEventCore where
  id := 1
  workspace_id := 7
  at_ := 0
  actor := "user"
  source := "api"
  action := "rating_version.create"
  entity_ref := "rating_version:motor@1"
  after := some (.obj [("value", .float x)])

theorem floatEvent_stable : (floatEvent ⟨false, 15, -1⟩).Stable := by
  refine ⟨by simp [floatEvent], ?_⟩
  simp [floatEvent, Json.Stable, StableMembers, PyFloat.readBack, PyFloat.spelledWithExponent]

/-- Two events of one workspace and one of another. -/
def threeEvents : List AuditEventCore :=
  [floatEvent ⟨false, 15, -1⟩, { floatEvent ⟨false, 15, -1⟩ with id := 2, workspace_id := 8 },
    { floatEvent ⟨false, 15, -1⟩ with id := 3, action := "rating_version.submit" }]

theorem threeEvents_stable : ∀ c ∈ threeEvents, c.Stable := by
  simp only [threeEvents, List.mem_cons, List.not_mem_nil, or_false]
  rintro c (rfl | rfl | rfl)
  all_goals exact floatEvent_stable

theorem verifyChain_run_float :
    let rows := workspaceRows (recordAll ChainHash.ofPayload threeEvents) 7
    rows.length = 2 ∧
      verifyChain ChainHash.ofPayload
          (storedTable List.reverse (recordAll ChainHash.ofPayload threeEvents)) 7 =
            .ok rows.length ∧
        ∀ tampered : AuditTable ChainHash,
          NotRecomputed ChainHash.ofPayload rows (workspaceRows tampered 7) →
            ((∃ e, verifyChain ChainHash.ofPayload tampered 7 = .error e) ↔
              ¬ (chainRows tampered 7).map AuditEventRow.seen <+: rows.map AuditEventRow.seen) :=
  ⟨rfl, verifyChain_run ChainHash.ofPayload_injective List.reverse_perm threeEvents
    threeEvents_stable 7⟩

/-- The only row of a chain can be removed, and an event with the float `1e16` never verifies. -/
theorem not_verifyChain_untouched :
    (workspaceRows (recordAll ChainHash.ofPayload [floatEvent ⟨false, 15, -1⟩]) 7).length = 1 ∧
      verifyChain ChainHash.ofPayload [] 7 = .ok 0 ∧
      verifyChain ChainHash.ofPayload
        (storedTable id (recordAll ChainHash.ofPayload [floatEvent ⟨false, 1, 16⟩])) 7 =
          .error (.content 1) := by
  refine ⟨rfl, rfl, ?_⟩
  have hne : computeEventHash ChainHash.ofPayload ((floatEvent ⟨false, 1, 16⟩).stored id) none ≠
      computeEventHash ChainHash.ofPayload (floatEvent ⟨false, 1, 16⟩) none := by
    simp [computeEventHash, ChainHash.ofPayload, AuditEventCore.canonical, AuditEventCore.stored,
      floatEvent, Json.stored, storedMembers, Json.canonical, canonicalMembers, PyFloat.readBack,
      PyFloat.spelledWithExponent]
  have hrows : chainRows
      (storedTable id (recordAll ChainHash.ofPayload [floatEvent ⟨false, 1, 16⟩])) 7 = [⟨(floatEvent ⟨false, 1, 16⟩).stored id, none,
        computeEventHash ChainHash.ofPayload (floatEvent ⟨false, 1, 16⟩) none, 1⟩] := rfl
  rw [verifyChain, hrows, verifyFrom, if_neg (by simp), if_neg (by simp), if_pos hne]

end GiPricing.Audit
