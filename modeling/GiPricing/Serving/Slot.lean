import GiPricing.Cache.Recency
import GiPricing.Transition.Run

/-! # Serving from the bundle slot

A worker holds the bundles it used last. A quote reads the metadata of its version before it takes
one, and is answered from the memo of the slot where a read fails.
-/

namespace GiPricing.Serving

open Cache Transition

abbrev UUID := ℕ

/-- `load_bundle`, and the hashes of a bundle and of its hydrated form. -/
structure Loader (Bundle Compiled : Type*) where
  bundle_hash : Bundle → String
  content_hash : Compiled → String
  load : Bundle → Except String Compiled
  hash_load : ∀ b c, load b = .ok c → content_hash c = bundle_hash b

variable {Bundle Compiled : Type*}

/-! ## The slot -/

structure BundleSlot (Compiled : Type*) where
  capacity : ℕ
  /-- By content hash, the most recently used last. -/
  held : OrderedDict String Compiled
  /-- From the text of a reference to the hash it was resolved to. -/
  resolved : OrderedDict String String
  one_le : 1 ≤ capacity

namespace BundleSlot

def new (capacity : ℤ) : Except String (BundleSlot Compiled) :=
  if h : capacity < 1 then
    .error (s!"bundle slot capacity must be at least 1, not {capacity}. A slot that " ++
      "can hold nothing passes every hit test by never hitting, and reads as " ++
      "'the cache is not helping' rather than as a misconfiguration.")
  else .ok ⟨capacity.toNat, [], [], by omega⟩

variable (slot : BundleSlot Compiled)

def get (content_hash : String) : Option (Compiled × BundleSlot Compiled) :=
  (slot.held.get content_hash).map fun held =>
    (held, { slot with held := slot.held.moveToEnd content_hash })

/-- Drop every reference resolved to an evicted hash. -/
def forget (resolved : OrderedDict String String) (content_hash : String) :
    OrderedDict String String :=
  resolved.filter fun e => e.2 ≠ content_hash

/-- Evict the oldest bundles over the capacity. -/
def evict (capacity : ℕ) : OrderedDict String Compiled → OrderedDict String String →
    OrderedDict String Compiled × OrderedDict String String
  | [], resolved => ([], resolved)
  | e :: held, resolved =>
    if capacity < (e :: held).length then evict capacity held (forget resolved e.1)
    else (e :: held, resolved)

def put (L : Loader Bundle Compiled) (ref : String) (compiled : Compiled) : BundleSlot Compiled :=
  let content_hash := L.content_hash compiled
  let held := (slot.held.set content_hash compiled).moveToEnd content_hash
  let kept := evict slot.capacity held (slot.resolved.set ref content_hash)
  { slot with held := kept.1, resolved := kept.2 }

def hashFor (ref : String) : Option String := slot.resolved.get ref

end BundleSlot

/-! ## A slot and its history -/

/-- A fetch that was put into the slot, and how many uses there were before it. -/
structure Fetch where
  ref : String
  content_hash : String
  at_use : ℕ

/-- A slot, the hashes it was used for, and its fetches, the latest first. -/
structure Held (Compiled : Type*) where
  slot : BundleSlot Compiled
  uses : List String
  fetches : List Fetch

namespace Held

variable (s : Held Compiled)

def get (content_hash : String) : Option (Compiled × Held Compiled) :=
  (s.slot.get content_hash).map fun r =>
    (r.1, { s with slot := r.2, uses := s.uses ++ [content_hash] })

def put (L : Loader Bundle Compiled) (ref : String) (compiled : Compiled) : Held Compiled where
  slot := s.slot.put L ref compiled
  uses := s.uses ++ [L.content_hash compiled]
  fetches := ⟨ref, L.content_hash compiled, s.uses.length⟩ :: s.fetches

def lastFetch (ref : String) : Option Fetch := s.fetches.find? fun f => f.ref = ref

def othersSince (f : Fetch) : ℕ := ((s.uses.drop f.at_use).filter (· ≠ f.content_hash)).dedup.length

/-- What the slot holds and remembers, from its history. -/
structure Sound (L : Loader Bundle Compiled) (s : Held Compiled) : Prop where
  recent : s.slot.held.keys.reverse = (recency s.uses).take s.slot.capacity
  named : ∀ e ∈ s.slot.held, L.content_hash e.2 = e.1
  refs : s.slot.resolved.keys.Nodup
  resolves : ∀ ref content_hash, s.slot.hashFor ref = some content_hash →
    content_hash ∈ s.slot.held.keys ∧ ∃ f, s.lastFetch ref = some f ∧ f.content_hash = content_hash
  placed : ∀ f ∈ s.fetches, s.uses[f.at_use]? = some f.content_hash
  remembers : ∀ ref f, s.lastFetch ref = some f → s.othersSince f < s.slot.capacity →
    s.slot.hashFor ref = some f.content_hash

variable {s : Held Compiled} {L : Loader Bundle Compiled} {ref content_hash : String}
  {compiled : Compiled}

theorem Sound.keys_nodup (h : Sound L s) : s.slot.held.keys.Nodup := by
  rw [← List.nodup_reverse, h.recent]
  exact (nodup_recency s.uses).sublist (List.take_sublist ..)

theorem Sound.mem_keys (h : Sound L s) {k : String} :
    k ∈ s.slot.held.keys ↔ k ∈ (recency s.uses).take s.slot.capacity := by
  rw [← h.recent, List.mem_reverse]

theorem keys_erase_append {d : OrderedDict String Compiled} (hd : d.keys.Nodup) (k : String)
    (v : Compiled) :
    (OrderedDict.keys (d.erase k ++ [(k, v)])).reverse = touch d.keys.reverse k := by
  have happend : OrderedDict.keys (d.erase k ++ [(k, v)]) = (d.erase k).keys ++ [k] :=
    List.map_append
  rw [happend, OrderedDict.keys_erase hd, List.reverse_append, touch, hd.erase_eq_filter,
    (List.nodup_reverse.mpr hd).erase_eq_filter, List.filter_reverse]
  rfl

/-- The loop keeps the newest entries, and the references to what is left. -/
theorem evict_eq (capacity : ℕ) (held : OrderedDict String Compiled)
    (resolved : OrderedDict String String) :
    BundleSlot.evict capacity held resolved = (held.drop (held.length - capacity),
      resolved.filter fun e => e.2 ∉ (held.take (held.length - capacity)).map Prod.fst) := by
  induction held generalizing resolved with
  | nil => simp [BundleSlot.evict]
  | cons e held ih =>
    rw [BundleSlot.evict]
    split_ifs with hover
    · obtain ⟨n, hn⟩ : ∃ n, (e :: held).length - capacity = n + 1 :=
        ⟨(e :: held).length - capacity - 1, by omega⟩
      have hlen : held.length - capacity = n := by
        rw [List.length_cons] at hn
        omega
      rw [ih, hn, hlen, List.drop_succ_cons, List.take_succ_cons, BundleSlot.forget,
        List.filter_filter]
      refine congrArg (Prod.mk _) (List.filter_congr fun r _ => ?_)
      by_cases hr : r.2 = e.1 <;> simp [hr]
    · rw [Nat.sub_eq_zero_of_le (by omega)]
      simp

theorem Sound.keys_put (h : Sound L s) (ref : String) (compiled : Compiled) :
    (s.slot.put L ref compiled).held.keys.reverse =
      (recency (s.uses ++ [L.content_hash compiled])).take s.slot.capacity := by
  rw [recency_snoc, ← take_touch_take, ← h.recent, ← keys_erase_append h.keys_nodup _ compiled,
    BundleSlot.put, evict_eq, OrderedDict.moveToEnd_set, List.take_reverse]
  simp only [OrderedDict.keys, List.map_drop, List.length_map]

theorem mem_held_put {e : String × Compiled} (he : e ∈ (s.slot.put L ref compiled).held) :
    e = (L.content_hash compiled, compiled) ∨ e ∈ s.slot.held := by
  rw [BundleSlot.put, evict_eq, OrderedDict.moveToEnd_set] at he
  rcases List.mem_append.mp (List.mem_of_mem_drop he) with he | he
  · exact Or.inr (List.mem_of_mem_filter he)
  · exact Or.inl (List.mem_singleton.mp he)

/-- After a put: a reference is remembered while its bundle is kept. -/
theorem Sound.hashFor_put (h : Sound L s) (ref : String) (compiled : Compiled) (r : String) :
    (s.slot.put L ref compiled).hashFor r =
      (if r = ref then some (L.content_hash compiled) else s.slot.hashFor r).filter
        fun k => k ∈ (s.slot.put L ref compiled).held.keys := by
  set k := L.content_hash compiled
  set moved := s.slot.held.erase k ++ [(k, compiled)] with hmoved
  have hheld : (s.slot.put L ref compiled).held = moved.drop (moved.length - s.slot.capacity) := by
    rw [BundleSlot.put, evict_eq, OrderedDict.moveToEnd_set]
  have hreverse : (OrderedDict.keys moved).reverse = touch s.slot.held.keys.reverse k :=
    keys_erase_append h.keys_nodup k compiled
  have hnodup : (OrderedDict.keys moved).Nodup := by
    rw [← List.nodup_reverse, hreverse]
    have hrev := List.nodup_reverse.mpr h.keys_nodup
    exact List.nodup_cons.mpr ⟨fun hmem => (hrev.mem_erase_iff.mp hmem).1 rfl, hrev.erase k⟩
  have hsplit : (moved.take (moved.length - s.slot.capacity)).map Prod.fst ++
      OrderedDict.keys (moved.drop (moved.length - s.slot.capacity)) = OrderedDict.keys moved := by
    rw [OrderedDict.keys, ← List.map_append, List.take_append_drop]
    rfl
  have hresolved : (s.slot.put L ref compiled).hashFor r =
      (OrderedDict.get (s.slot.resolved.set ref k) r).filter fun x =>
        x ∉ (moved.take (moved.length - s.slot.capacity)).map Prod.fst := by
    rw [BundleSlot.hashFor, BundleSlot.put, evict_eq, OrderedDict.moveToEnd_set,
      OrderedDict.get_filter (OrderedDict.nodup_set h.refs ref k)]
  rw [hresolved, OrderedDict.get_set, ← BundleSlot.hashFor, hheld]
  cases hx : (if r = ref then some k else s.slot.hashFor r) with
  | none => rfl
  | some x =>
    have hmem : x ∈ OrderedDict.keys moved := by
      rw [← List.mem_reverse, hreverse, touch, List.mem_cons]
      by_cases hxk : x = k
      · exact Or.inl hxk
      · refine Or.inr ((List.mem_erase_of_ne hxk).mpr (List.mem_reverse.mpr ?_))
        split_ifs at hx with hr
        · exact absurd (Option.some.inj hx).symm hxk
        · exact (h.resolves r x hx).1
    rw [← hsplit] at hmem hnodup
    have hiff : x ∉ (moved.take (moved.length - s.slot.capacity)).map Prod.fst ↔
        x ∈ OrderedDict.keys (moved.drop (moved.length - s.slot.capacity)) := by
      constructor
      · exact fun hnot => (List.mem_append.mp hmem).resolve_left hnot
      · exact fun hkept hevicted => (List.nodup_append.mp hnodup).2.2 x hevicted x hkept rfl
    simp only [Option.filter_some, hiff]

theorem mem_keys_of_othersSince {uses : List String} {f : Fetch} {capacity : ℕ}
    (hplaced : uses[f.at_use]? = some f.content_hash)
    (hothers : ((uses.drop f.at_use).filter (· ≠ f.content_hash)).dedup.length < capacity) :
    f.content_hash ∈ (recency uses).take capacity := by
  obtain ⟨hlt, hget⟩ := List.getElem?_eq_some_iff.mp hplaced
  have hdrop : uses.drop f.at_use = f.content_hash :: uses.drop (f.at_use + 1) := by
    rw [List.drop_eq_getElem_cons hlt, hget]
  rw [hdrop] at hothers
  have hmem := mem_take_recency_of_use (uses.take f.at_use) hothers
  rwa [← hdrop, List.take_append_drop] at hmem

theorem othersSince_snoc {uses : List String} {f : Fetch} (hlt : f.at_use < uses.length) (k : String) :
    ((uses.drop f.at_use).filter (· ≠ f.content_hash)).dedup.length ≤
      (((uses ++ [k]).drop f.at_use).filter (· ≠ f.content_hash)).dedup.length := by
  rw [List.drop_append_of_le_length hlt.le, List.filter_append, ← List.card_toFinset,
    ← List.card_toFinset]
  refine Finset.card_le_card fun x hx => ?_
  rw [List.mem_toFinset] at hx ⊢
  exact List.mem_append_left _ hx

theorem placed_snoc {uses : List String} {f : Fetch} (h : uses[f.at_use]? = some f.content_hash)
    (k : String) :
    f.at_use < uses.length ∧ (uses ++ [k])[f.at_use]? = some f.content_hash := by
  obtain ⟨hlt, -⟩ := List.getElem?_eq_some_iff.mp h
  exact ⟨hlt, by rw [List.getElem?_append_left hlt, h]⟩

theorem mem_of_lastFetch {f : Fetch} (h : s.lastFetch ref = some f) : f ∈ s.fetches ∧ f.ref = ref :=
  ⟨List.mem_of_find?_eq_some h, by simpa using List.find?_some h⟩

theorem Sound.put (h : Sound L s) (ref : String) (compiled : Compiled) :
    Sound L (s.put L ref compiled) := by
  have hkept := h.keys_put ref compiled
  have hlast : ∀ r, (s.put L ref compiled).lastFetch r =
      if r = ref then some ⟨ref, L.content_hash compiled, s.uses.length⟩ else s.lastFetch r := by
    intro r
    by_cases hr : r = ref
    · simp [lastFetch, Held.put, hr]
    · simp [lastFetch, Held.put, hr, Ne.symm hr]
  have hplaced : ∀ f ∈ (s.put L ref compiled).fetches,
      (s.put L ref compiled).uses[f.at_use]? = some f.content_hash := by
    intro f hf
    rcases List.mem_cons.mp hf with rfl | hf
    · simp [Held.put]
    · exact (placed_snoc (h.placed f hf) _).2
  refine ⟨hkept, fun e he => ?_, ?_, fun r k hr => ?_, hplaced, fun r f hf hothers => ?_⟩
  · rcases mem_held_put he with rfl | he
    · rfl
    · exact h.named e he
  · simp only [Held.put, BundleSlot.put, evict_eq]
    exact (OrderedDict.nodup_set h.refs ref _).sublist (List.filter_sublist.map _)
  · have hfound : (s.slot.put L ref compiled).hashFor r = some k := hr
    rw [h.hashFor_put, Option.filter_eq_some_iff, decide_eq_true_eq] at hfound
    refine ⟨hfound.2, ?_⟩
    rw [hlast]
    split_ifs at hfound ⊢ with heq
    · exact ⟨_, rfl, Option.some.inj hfound.1⟩
    · exact (h.resolves r k hfound.1).2
  · have hmem : f.content_hash ∈ (s.slot.put L ref compiled).held.keys := by
      rw [← List.mem_reverse, hkept]
      exact mem_keys_of_othersSince (hplaced f (mem_of_lastFetch hf).1) hothers
    have hfound : (s.slot.put L ref compiled).hashFor r = some f.content_hash := by
      rw [h.hashFor_put, Option.filter_eq_some_iff, decide_eq_true_eq]
      refine ⟨?_, hmem⟩
      rw [hlast] at hf
      split_ifs at hf ⊢ with heq
      · rw [← Option.some.inj hf]
      · obtain ⟨hlt, -⟩ := placed_snoc (h.placed f (mem_of_lastFetch hf).1) (L.content_hash compiled)
        exact h.remembers r f hf ((othersSince_snoc hlt _).trans_lt hothers)
    exact hfound

theorem Sound.get (h : Sound L s) {k : String} {held : Compiled} {s' : Held Compiled}
    (hget : s.get k = some (held, s')) : Sound L s' := by
  obtain ⟨r, hr, heq⟩ := Option.map_eq_some_iff.mp hget
  obtain ⟨v, hv, rfl⟩ := Option.map_eq_some_iff.mp hr
  obtain ⟨rfl, rfl⟩ := Prod.mk.inj heq
  have hmoved : s.slot.held.moveToEnd k = s.slot.held.erase k ++ [(k, v)] := by
    simp only [OrderedDict.moveToEnd, hv]
  have hreverse := keys_erase_append h.keys_nodup k v
  have hmem : k ∈ (recency s.uses).take s.slot.capacity :=
    h.mem_keys.mp (List.mem_map_of_mem (OrderedDict.get_mem hv))
  refine ⟨?_, fun e he => ?_, h.refs, fun ref k' hk' => ⟨?_, (h.resolves ref k' hk').2⟩,
    fun f hf => (placed_snoc (h.placed f hf) k).2, fun ref f hf hothers => ?_⟩
  · rw [hmoved, hreverse, h.recent, touch_take_of_mem hmem, recency_snoc]
  · have he' : e ∈ s.slot.held.erase k ++ [(k, v)] := hmoved ▸ he
    rcases List.mem_append.mp he' with he | he
    · exact h.named e (List.mem_of_mem_filter he)
    · rw [List.mem_singleton.mp he]
      exact h.named _ (OrderedDict.get_mem hv)
  · have hk := (h.resolves ref k' hk').1
    rw [hmoved, ← List.mem_reverse, hreverse, touch, List.mem_cons]
    by_cases heq : k' = k
    · exact Or.inl heq
    · exact Or.inr ((List.mem_erase_of_ne heq).mpr (List.mem_reverse.mpr hk))
  · obtain ⟨hlt, -⟩ := placed_snoc (h.placed f (mem_of_lastFetch hf).1) k
    exact h.remembers ref f hf ((othersSince_snoc hlt k).trans_lt hothers)

end Held

/-! ## Quotes in flight -/

structure PlatformError where
  code : String
  title : String
  detail : String
  deriving DecidableEq

/-- How the read of a version ends: an unexpected failure, a decided refusal, or its metadata. -/
inductive RowReply
  | failed (error : String)
  | refused (error : PlatformError)
  | version (content_hash blob_sha256 : Option String)

inductive BlobReply (Bundle : Type*)
  | failed (error : String)
  | missing
  | payload (bundle : Bundle)

/-- A call that waits for a read. Preparing a deployment fetches without degrading. -/
structure Call where
  id : ℕ
  workspace_id : UUID
  ref : String
  degrades : Bool
  loading : Bool
  deriving DecidableEq

inductive Answer (Compiled : Type*)
  | fresh (compiled : Compiled)
  | degraded (compiled : Compiled)
  | refused (error : PlatformError)
  | raised (error : String)

def Call.notCompiled (call : Call) : PlatformError where
  code := "BUNDLE_COMPILE_FAILED"
  title := "Rating version is not compiled"
  detail := s!"{call.ref} has no compiled bundle to score against. Compile it first."

def Call.blobMissing (call : Call) : PlatformError where
  code := "BUNDLE_COMPILE_FAILED"
  title := "Compiled bundle is missing"
  detail := s!"{call.ref}'s compiled bundle is no longer in the blob store."

/-- A worker: its slot, the calls in flight and the answers given, the latest first. -/
structure Worker (Compiled : Type*) where
  held : Held Compiled
  calls : List Call
  answers : List (Call × Answer Compiled)

inductive Event (Bundle : Type*)
  | request (id : ℕ) (workspace_id : UUID) (ref : String) (degrades : Bool)
  | resolved (id : ℕ) (reply : RowReply)
  | loaded (id : ℕ) (reply : BlobReply Bundle)
  | cancelled (id : ℕ)

namespace Worker

def start (capacity : ℕ) (one_le : 1 ≤ capacity) : Worker Compiled :=
  ⟨⟨⟨capacity, [], [], one_le⟩, [], []⟩, [], []⟩

variable (w : Worker Compiled)

def without (id : ℕ) : List Call := w.calls.filter fun c => c.id ≠ id

def answer (call : Call) (held : Held Compiled) (a : Answer Compiled) : Worker Compiled :=
  ⟨held, w.without call.id, (call, a) :: w.answers⟩

/-- The end of `_fetch_bundle`: the bundle is put, whether it was held or loaded. -/
def fetched (L : Loader Bundle Compiled) (call : Call) (held : Held Compiled)
    (compiled : Compiled) : Worker Compiled :=
  w.answer call (held.put L call.ref compiled) (.fresh compiled)

/-- The `except Exception` of `_compiled_for`. -/
def degrade (call : Call) (error : String) : Worker Compiled :=
  if call.degrades then
    match (w.held.slot.hashFor call.ref).bind w.held.get with
    | some (compiled, held) => w.answer call held (.degraded compiled)
    | none => w.answer call w.held (.raised error)
  else w.answer call w.held (.raised error)

/-- `_fetch_bundle` once the row is read. -/
def resolve (L : Loader Bundle Compiled) (call : Call) : RowReply → Worker Compiled
  | .failed error => w.degrade call error
  | .refused error => w.answer call w.held (.refused error)
  | .version content_hash blob_sha256 =>
    if blob_sha256.getD "" = "" then w.answer call w.held (.refused call.notCompiled)
    else match content_hash.bind w.held.get with
      | some (compiled, held) => w.fetched L call held compiled
      | none => { w with calls := { call with loading := true } :: w.without call.id }

/-- `_fetch_bundle` once the blob is read. A bundle that does not hydrate raises too. -/
def load (L : Loader Bundle Compiled) (call : Call) : BlobReply Bundle → Worker Compiled
  | .failed error => w.degrade call error
  | .missing => w.answer call w.held (.refused call.blobMissing)
  | .payload bundle =>
    match w.held.get (L.bundle_hash bundle) with
    | some (compiled, held) => w.fetched L call held compiled
    | none =>
      match L.load bundle with
      | .ok compiled => w.fetched L call w.held compiled
      | .error error => w.degrade call error

def step (L : Loader Bundle Compiled) (w : Worker Compiled) : Event Bundle → Option (Worker Compiled)
  | .request id workspace_id ref degrades =>
    if w.calls.any fun c => c.id = id then none
    else some { w with calls := ⟨id, workspace_id, ref, degrades, false⟩ :: w.calls }
  | .resolved id reply =>
    (w.calls.find? fun c => c.id = id ∧ c.loading = false).map fun call => w.resolve L call reply
  | .loaded id reply =>
    (w.calls.find? fun c => c.id = id ∧ c.loading = true).map fun call => w.load L call reply
  | .cancelled id => some { w with calls := w.without id }

end Worker

/-! ## Answers -/

namespace Worker

variable {L : Loader Bundle Compiled} {w w' : Worker Compiled} {call : Call}

/-- What an answer says about the slot: a fresh bundle was put for the reference, and a degraded one
is what the worker fetched last for it, for whichever workspace. -/
def Backed (L : Loader Bundle Compiled) (held : Held Compiled) (call : Call) : Answer Compiled → Prop
  | .fresh compiled =>
    (∃ f, held.lastFetch call.ref = some f ∧ f.content_hash = L.content_hash compiled) ∧
      held.slot.hashFor call.ref = some (L.content_hash compiled)
  | .degraded compiled =>
    (∃ f, held.lastFetch call.ref = some f ∧ f.content_hash = L.content_hash compiled) ∧
      call.degrades = true
  | .refused _ | .raised _ => True

/-- The slot is sound, and the answers a step adds are backed. -/
structure Steps (L : Loader Bundle Compiled) (w w' : Worker Compiled) : Prop where
  sound : Held.Sound L w'.held
  capacity : w'.held.slot.capacity = w.held.slot.capacity
  answers : w'.answers = w.answers ∨
    ∃ call a, w'.answers = (call, a) :: w.answers ∧ Backed L w'.held call a

theorem get_capacity {s s' : Held Compiled} {k : String} {compiled : Compiled}
    (h : s.get k = some (compiled, s')) : s'.slot.capacity = s.slot.capacity ∧
      s'.fetches = s.fetches ∧ s.slot.held.get k = some compiled := by
  obtain ⟨r, hr, heq⟩ := Option.map_eq_some_iff.mp h
  obtain ⟨v, hv, rfl⟩ := Option.map_eq_some_iff.mp hr
  obtain ⟨rfl, rfl⟩ := Prod.mk.inj heq
  exact ⟨rfl, rfl, hv⟩

theorem steps_fetched {held : Held Compiled} (h : Held.Sound L held)
    (hcapacity : held.slot.capacity = w.held.slot.capacity) (call : Call) (compiled : Compiled) :
    Steps L w (w.fetched L call held compiled) := by
  refine ⟨h.put call.ref compiled, hcapacity, Or.inr ⟨call, .fresh compiled, rfl, ?_, ?_⟩⟩
  · exact ⟨⟨call.ref, L.content_hash compiled, held.uses.length⟩,
      by simp [fetched, answer, Held.put, Held.lastFetch], rfl⟩
  · refine (h.put call.ref compiled).remembers call.ref
      ⟨call.ref, L.content_hash compiled, held.uses.length⟩ ?_ ?_
    · simp [Held.put, Held.lastFetch]
    · have hone : 0 < held.slot.capacity := held.slot.one_le
      simp only [Held.put, Held.othersSince, BundleSlot.put, List.drop_left]
      simpa using hone

theorem steps_degrade (h : Held.Sound L w.held) (call : Call) (error : String) :
    Steps L w (w.degrade call error) := by
  have hraised : Steps L w (w.answer call w.held (.raised error)) :=
    ⟨h, rfl, Or.inr ⟨call, .raised error, rfl, trivial⟩⟩
  rw [degrade]
  split_ifs with hdegrades
  · split
    · rename_i compiled held hfound
      obtain ⟨k, hk, hget⟩ := Option.bind_eq_some_iff.mp hfound
      obtain ⟨hcapacity, hfetches, hheld⟩ := get_capacity hget
      obtain ⟨-, f, hf, hhash⟩ := h.resolves call.ref k hk
      refine ⟨h.get hget, hcapacity, Or.inr ⟨call, .degraded compiled, rfl, ⟨f, ?_, ?_⟩, hdegrades⟩⟩
      · rw [← hf]
        simp only [answer, Held.lastFetch, hfetches]
      · rw [hhash, h.named _ (OrderedDict.get_mem hheld)]
    · exact hraised
  · exact hraised

theorem steps_resolve (h : Held.Sound L w.held) (call : Call) (reply : RowReply) :
    Steps L w (w.resolve L call reply) := by
  cases reply with
  | failed error => exact steps_degrade h call error
  | refused error => exact ⟨h, rfl, Or.inr ⟨call, .refused error, rfl, trivial⟩⟩
  | version content_hash blob_sha256 =>
    rw [resolve]
    split_ifs with hblob
    · exact ⟨h, rfl, Or.inr ⟨call, .refused call.notCompiled, rfl, trivial⟩⟩
    · split
      · rename_i compiled held hfound
        obtain ⟨k, -, hget⟩ := Option.bind_eq_some_iff.mp hfound
        exact steps_fetched (h.get hget) (get_capacity hget).1 call compiled
      · exact ⟨h, rfl, Or.inl rfl⟩

theorem steps_load (h : Held.Sound L w.held) (call : Call) (reply : BlobReply Bundle) :
    Steps L w (w.load L call reply) := by
  cases reply with
  | failed error => exact steps_degrade h call error
  | missing => exact ⟨h, rfl, Or.inr ⟨call, .refused call.blobMissing, rfl, trivial⟩⟩
  | payload bundle =>
    rw [load]
    split
    · rename_i compiled held hget
      exact steps_fetched (h.get hget) (get_capacity hget).1 call compiled
    · split
      · exact steps_fetched h rfl call _
      · exact steps_degrade h call _

theorem steps_step (w : Worker Compiled) (e : Event Bundle) (w' : Worker Compiled)
    (h : Held.Sound L w.held) (hstep : step L w e = some w') : Steps L w w' := by
  cases e with
  | request id workspace_id ref degrades =>
    simp only [step] at hstep
    split_ifs at hstep
    cases hstep
    exact ⟨h, rfl, Or.inl rfl⟩
  | resolved id reply =>
    obtain ⟨call, -, rfl⟩ := Option.map_eq_some_iff.mp hstep
    exact steps_resolve h call reply
  | loaded id reply =>
    obtain ⟨call, -, rfl⟩ := Option.map_eq_some_iff.mp hstep
    exact steps_load h call reply
  | cancelled id =>
    cases hstep
    exact ⟨h, rfl, Or.inl rfl⟩

theorem new_eq_ok {capacity : ℤ} {slot : BundleSlot Compiled} : BundleSlot.new capacity = .ok slot ↔
    ∃ n one_le, capacity = (n : ℕ) ∧ slot = (start n one_le).held.slot := by
  unfold BundleSlot.new
  split_ifs with h
  · refine iff_of_false (by simp) ?_
    rintro ⟨n, one_le, rfl, -⟩
    omega
  · constructor
    · intro hslot
      exact ⟨capacity.toNat, by omega, by omega, (Except.ok.inj hslot).symm⟩
    · rintro ⟨n, one_le, rfl, rfl⟩
      rfl

theorem sound_start (capacity : ℕ) (one_le : 1 ≤ capacity) :
    Held.Sound L (start capacity one_le : Worker Compiled).held where
  recent := by simp [start, OrderedDict.keys, recency]
  named := by rintro e ⟨⟩
  refs := List.nodup_nil
  resolves := by rintro ref k ⟨⟩
  placed := by rintro f ⟨⟩
  remembers := by rintro ref f ⟨⟩

/-- Over every interleaving of quotes, outages and recompiles: the slot holds the bundles it used
last, each under its own hash, and no reference outlives its bundle. -/
theorem serving_sound (L : Loader Bundle Compiled) (capacity : ℕ) (one_le : 1 ≤ capacity)
    (es : List (Event Bundle)) :
    Always (step L) (fun w _ w' => Steps L w w') (start capacity one_le) es :=
  always_of_preserves (fun w e w' h hstep =>
    ⟨(steps_step w e w' h hstep).sound, steps_step w e w' h hstep⟩) (sound_start capacity one_le) es

theorem sound_run {capacity : ℕ} {one_le : 1 ≤ capacity} {es : List (Event Bundle)}
    (h : run (step L) (start capacity one_le) es = some w) :
    Held.Sound L w.held ∧ w.held.slot.capacity = capacity := by
  have hpreserves : ∀ (w : Worker Compiled) (e : Event Bundle) w',
      Held.Sound L w.held ∧ w.held.slot.capacity = capacity → step L w e = some w' →
        Held.Sound L w'.held ∧ w'.held.slot.capacity = capacity := by
    intro w e w' hw hstep
    have hsteps := steps_step w e w' hw.1 hstep
    exact ⟨hsteps.sound, hsteps.capacity.trans hw.2⟩
  exact @run_preserves _ _ (step L)
    (fun w => Held.Sound L w.held ∧ w.held.slot.capacity = capacity) _ _ _ hpreserves
    ⟨sound_start capacity one_le, rfl⟩ h

theorem degrade_eq (hsound : Held.Sound L w.held) {content_hash : String}
    (hdegrades : call.degrades = true) (hhash : w.held.slot.hashFor call.ref = some content_hash)
    (error : String) :
    ∃ compiled held, w.degrade call error = w.answer call held (.degraded compiled) ∧
      w.held.slot.held.get content_hash = some compiled ∧ L.content_hash compiled = content_hash := by
  obtain ⟨hmem, -⟩ := hsound.resolves call.ref content_hash hhash
  cases hget : w.held.slot.held.get content_hash with
  | none => exact absurd hmem (OrderedDict.get_eq_none.mp hget)
  | some compiled =>
    obtain ⟨held, hheld⟩ : ∃ held, w.held.get content_hash = some (compiled, held) := by
      simp [Held.get, BundleSlot.get, hget]
    refine ⟨compiled, held, ?_, rfl, hsound.named _ (OrderedDict.get_mem hget)⟩
    simp only [degrade, hdegrades, if_true, hhash, Option.bind_some, hheld]

/-- Where a read fails, a call is answered from the last fetch of its reference as long as fewer than
the capacity of other bundles were used since. -/
theorem degrades_to_last_fetch (L : Loader Bundle Compiled) (capacity : ℕ) (one_le : 1 ≤ capacity)
    (es : List (Event Bundle)) (w : Worker Compiled)
    (h : run (step L) (start capacity one_le) es = some w) (call : Call) (f : Fetch)
    (hdegrades : call.degrades = true) (hlast : w.held.lastFetch call.ref = some f)
    (hothers : w.held.othersSince f < capacity) (error : String) :
    ∃ compiled held, w.resolve L call (.failed error) = w.answer call held (.degraded compiled) ∧
      w.load L call (.failed error) = w.answer call held (.degraded compiled) ∧
        L.content_hash compiled = f.content_hash := by
  obtain ⟨hsound, hcapacity⟩ := sound_run h
  have hhash := hsound.remembers call.ref f hlast (hcapacity ▸ hothers)
  obtain ⟨compiled, held, hanswer, -, hcompiled⟩ := degrade_eq hsound hdegrades hhash error
  exact ⟨compiled, held, hanswer, hanswer, hcompiled⟩

/-- A bundle that `load_bundle` refuses is not refused to the caller while the slot remembers the
reference: the call is answered from the last fetch of it, which is another bundle. -/
theorem refused_hydration_degrades (L : Loader Bundle Compiled) (capacity : ℕ)
    (one_le : 1 ≤ capacity) (es : List (Event Bundle)) (w : Worker Compiled)
    (h : run (step L) (start capacity one_le) es = some w) (call : Call) (content_hash : String)
    (hdegrades : call.degrades = true)
    (hhash : w.held.slot.hashFor call.ref = some content_hash) (bundle : Bundle) (error : String)
    (hload : L.load bundle = .error error) (hmiss : w.held.get (L.bundle_hash bundle) = none) :
    ∃ f compiled held, w.held.lastFetch call.ref = some f ∧
      w.load L call (.payload bundle) = w.answer call held (.degraded compiled) ∧
      L.content_hash compiled = f.content_hash ∧ f.content_hash ≠ L.bundle_hash bundle := by
  obtain ⟨hsound, -⟩ := sound_run h
  obtain ⟨-, f, hlast, hf⟩ := hsound.resolves call.ref content_hash hhash
  obtain ⟨compiled, held, hanswer, hheld, hcompiled⟩ := degrade_eq hsound hdegrades hhash error
  refine ⟨f, compiled, held, hlast, ?_, hcompiled.trans hf.symm, fun heq => ?_⟩
  · simp only [load, hmiss, hload, hanswer]
  · rw [← heq, hf] at hmiss
    simp [Held.get, BundleSlot.get, hheld] at hmiss

/-! ## A worker that served one version -/

/-- Bundles by their hashes, of which the empty one does not hydrate. -/
def named : Loader String String where
  bundle_hash := id
  content_hash := id
  load b := if b = "" then .error "RATING_VERSION_UNPINNED" else .ok b
  hash_load b c h := by
    split_ifs at h
    cases h
    rfl

def motor : Call := ⟨2, 8, "rating_version:motor@3", true, false⟩

def fetchedOnce : List (Event String) :=
  [.request 1 7 "rating_version:motor@3" true, .resolved 1 (.version (some "a") (some "b")),
    .loaded 1 (.payload "a")]

theorem serving_sound_once : (run (step named) (start 1 le_rfl) fetchedOnce).isSome ∧
    Always (step named) (fun w _ w' => Steps named w w') (start 1 le_rfl) fetchedOnce :=
  ⟨rfl, serving_sound named 1 le_rfl fetchedOnce⟩

theorem held_fetchedOnce : ∃ w, run (step named) (start 1 le_rfl) fetchedOnce = some w ∧
    w.held.lastFetch motor.ref = some ⟨"rating_version:motor@3", "a", 0⟩ ∧
      w.held.othersSince ⟨"rating_version:motor@3", "a", 0⟩ < 1 ∧ w.held.get "" = none :=
  ⟨_, rfl, rfl, by decide, rfl⟩

theorem degrades_to_last_fetch_once : ∃ w held, run (step named) (start 1 le_rfl) fetchedOnce = some w ∧
    w.resolve named motor (.failed "connection refused") = w.answer motor held (.degraded "a") := by
  obtain ⟨w, hw, hlast, hothers, -⟩ := held_fetchedOnce
  obtain ⟨compiled, held, hanswer, -, rfl⟩ := degrades_to_last_fetch named 1 le_rfl fetchedOnce w hw
    motor _ rfl hlast hothers "connection refused"
  exact ⟨w, held, hw, hanswer⟩

/-- Four fetches of three bundles into a slot of two: the third takes the first bundle up again. -/
def fetchedAgain : List (Event String) :=
  [.request 1 7 "rating_version:motor@3" true, .resolved 1 (.version (some "a") (some "x")),
    .loaded 1 (.payload "a"), .request 3 7 "rating_version:home@1" true,
    .resolved 3 (.version (some "b") (some "y")), .loaded 3 (.payload "b"),
    .request 4 7 "rating_version:van@1" true, .resolved 4 (.version (some "a") (some "x")),
    .request 5 7 "rating_version:pet@1" true, .resolved 5 (.version (some "c") (some "z")),
    .loaded 5 (.payload "c")]

/-- Two other bundles were used since the reference was fetched, and it is still remembered. -/
theorem refused_hydration_degrades_again : ∃ w held f,
    run (step named) (start 2 one_le_two) fetchedAgain = some w ∧
      w.held.lastFetch motor.ref = some f ∧ w.held.othersSince f = 2 ∧
      w.load named motor (.payload "") = w.answer motor held (.degraded "a") := by
  obtain ⟨w, hw, hhash, hmiss, hothers⟩ : ∃ w,
      run (step named) (start 2 one_le_two) fetchedAgain = some w ∧
      w.held.slot.hashFor motor.ref = some "a" ∧ w.held.get "" = none ∧
      (w.held.lastFetch motor.ref).map w.held.othersSince = some 2 :=
    ⟨_, rfl, rfl, rfl, by decide⟩
  obtain ⟨f, compiled, held, hlast, hanswer, hcompiled, -⟩ := refused_hydration_degrades named 2
    one_le_two fetchedAgain w hw motor "a" rfl hhash "" "RATING_VERSION_UNPINNED" rfl hmiss
  rw [hlast, Option.map_some, Option.some_inj] at hothers
  obtain ⟨-, g, hg, ha⟩ := (sound_run hw).1.resolves motor.ref "a" hhash
  obtain rfl : f = g := Option.some.inj (hlast.symm.trans hg)
  obtain rfl : compiled = "a" := hcompiled.trans ha
  exact ⟨w, held, f, hw, hlast, hothers, hanswer⟩

end Worker

end GiPricing.Serving
