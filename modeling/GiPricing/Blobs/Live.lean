import GiPricing.Blobs.Store

/-! # Live content

Where every transaction retains what it refers to, and no sweep meets a transaction or is abandoned
half way, a digest that a committed row names keeps its row and its object, and its count is the
number of those rows.
-/

namespace GiPricing.Blobs

open Transition

variable {s s' : Store} {e : Event} {t k : ℕ} {tx tx' : Tx} {sweep : Sweep} {d : Digest}

/-- A digest that is named has its row and its object, and every count is that of the names. -/
structure Live (s : Store) : Prop where
  kept : ∀ d, 0 < s.refs d → ∃ row, s.blobs d = some row ∧ s.objects d = true
  counted : ∀ d row, s.blobs d = some row → row.refCount = s.refs d

/-- A step that neither miscounts nor lets a sweep and a transaction meet. -/
structure Careful (s : Store) (e : Event) (_ : Store) : Prop where
  /-- A transaction that commits retains once for each row that starts to name a digest, and releases
  once for each that ceases to. -/
  counted : ∀ t tx, e = .commit t → s.txs t = some tx → s.Fits tx → tx.count = tx.refs
  /-- No transaction starts on a candidate of a sweep under way. -/
  started : ∀ t w k sweep, e = .start t w → s.sweeps k = some sweep →
    ∀ d ∈ w.digests, sweep.candidates d = false
  /-- No sweep takes a digest of an open transaction. -/
  selected : ∀ k grace t tx, e = .select k grace → s.txs t = some tx →
    ∀ d ∈ tx.digests, s.collectable grace d = false
  /-- A sweep that has deleted an object is not abandoned. -/
  finished : ∀ k sweep, e = .abandon k → s.sweeps k = some sweep → sweep.deleted = []

/-! ## The invariant -/

structure Tx.Sound (objects : Digest → Bool) (tx : Tx) : Prop where
  inserted : ∀ d ∈ tx.inserted, objects d = true ∧ d ∈ tx.digests
  todo : ∀ op ∈ tx.todo, op.digest ∈ tx.digests
  others : ∀ d, d ∉ tx.digests → tx.count d = 0 ∧ tx.refs d = 0

structure Inv (s : Store) : Prop where
  counted : ∀ d row, s.blobs d = some row → row.refCount = s.refs d
  absent : ∀ d, s.blobs d = none → s.refs d = 0
  objects : ∀ d row, s.blobs d = some row →
    s.objects d = true ∨ ∃ k sweep, s.sweeps k = some sweep ∧ d ∈ sweep.deleted
  deleted : ∀ k sweep, s.sweeps k = some sweep → ∀ d ∈ sweep.deleted, sweep.candidates d = true
  unnamed : ∀ k sweep, s.sweeps k = some sweep → ∀ d, sweep.candidates d = true → s.refs d = 0
  txs : ∀ t tx, s.txs t = some tx → tx.Sound s.objects
  apart : ∀ t tx k sweep, s.txs t = some tx → s.sweeps k = some sweep →
    ∀ d ∈ tx.digests, sweep.candidates d = false

theorem inv_init : Inv .init where
  counted := by rintro d row ⟨⟩
  absent _ _ := rfl
  objects := by rintro d row ⟨⟩
  deleted := by rintro k sweep ⟨⟩
  unnamed := by rintro k sweep ⟨⟩
  txs := by rintro t tx ⟨⟩
  apart := by rintro t tx k sweep ⟨⟩

theorem Inv.live (h : Inv s) : Live s where
  kept d hd := by
    cases hrow : s.blobs d with
    | none => exact absurd (h.absent d hrow) hd.ne'
    | some row =>
      refine ⟨row, rfl, ?_⟩
      rcases h.objects d row hrow with hobject | ⟨k, sweep, hsweep, hdeleted⟩
      · exact hobject
      · exact absurd (h.unnamed k sweep hsweep d (h.deleted k sweep hsweep d hdeleted)) hd.ne'
  counted := h.counted

/-! ## Transactions -/

theorem txs_setTx {o : Option Tx} (h : (s.setTx t o).txs k = some tx) :
    k = t ∧ o = some tx ∨ k ≠ t ∧ s.txs k = some tx := by
  change Function.update s.txs t o k = some tx at h
  rcases eq_or_ne k t with rfl | hne
  · rw [Function.update_self] at h
    exact Or.inl ⟨rfl, h⟩
  · rw [Function.update_of_ne hne] at h
    exact Or.inr ⟨hne, h⟩

theorem Tx.Sound.mono {objects objects' : Digest → Bool} (h : tx.Sound objects)
    (hmono : ∀ d ∈ tx.digests, objects d = true → objects' d = true) : tx.Sound objects' where
  inserted d hd := ⟨hmono d (h.inserted d hd).2 (h.inserted d hd).1, (h.inserted d hd).2⟩
  todo := h.todo
  others := h.others

/-- An open transaction is replaced, and objects may be added. -/
theorem Inv.setTx {objects : Digest → Bool} (h : Inv s)
    (hmono : ∀ d, s.objects d = true → objects d = true) (hsound : tx'.Sound objects)
    (hapart : ∀ k sweep, s.sweeps k = some sweep → ∀ d ∈ tx'.digests, sweep.candidates d = false) :
    Inv ({ s with objects := objects }.setTx t (some tx')) where
  counted := h.counted
  absent := h.absent
  objects d row hrow := (h.objects d row hrow).imp (hmono d) id
  deleted := h.deleted
  unnamed := h.unnamed
  txs u tx hu := by
    rcases txs_setTx hu with ⟨-, he⟩ | ⟨-, hu⟩
    · cases he
      exact hsound
    · exact (h.txs u tx hu).mono fun d _ => hmono d
  apart u tx k sweep hu hk := by
    rcases txs_setTx hu with ⟨-, he⟩ | ⟨-, hu⟩
    · cases he
      exact hapart k sweep hk
    · exact h.apart u tx k sweep hu hk

theorem Inv.dropTx (h : Inv s) : Inv (s.setTx t none) where
  counted := h.counted
  absent := h.absent
  objects := h.objects
  deleted := h.deleted
  unnamed := h.unnamed
  txs u tx hu := by
    rcases txs_setTx hu with ⟨-, he⟩ | ⟨-, hu⟩
    · cases he
    · exact h.txs u tx hu
  apart u tx k sweep hu hk := by
    rcases txs_setTx hu with ⟨-, he⟩ | ⟨-, hu⟩
    · cases he
    · exact h.apart u tx k sweep hu hk

theorem Tx.Sound.adjust {objects : Digest → Bool} {op : Op} {rest : List Op} (h : tx.Sound objects)
    (htodo : tx.todo = op :: rest) (count refs : Digest → ℤ)
    (hothers : ∀ d, d ≠ op.digest → count d = tx.count d ∧ refs d = tx.refs d) :
    Tx.Sound objects { tx with todo := rest, count := count, refs := refs } where
  inserted := h.inserted
  todo op' hop := h.todo op' (htodo ▸ List.mem_cons_of_mem _ hop)
  others d hd := by
    have hop : op.digest ∈ tx.digests := h.todo op (htodo ▸ List.mem_cons_self)
    have hne : d ≠ op.digest := fun he => hd (he ▸ hop)
    obtain ⟨hcount, hrefs⟩ := hothers d hne
    obtain ⟨hcount', hrefs'⟩ := h.others d hd
    exact ⟨hcount.trans hcount', hrefs.trans hrefs'⟩

theorem Inv.perform (h : Inv s) (ht : s.txs t = some tx) (hstep : s.perform t tx = some s') :
    Inv s' := by
  have hsound := h.txs t tx ht
  have hapart := h.apart t tx
  have hset : ∀ {tx' : Tx}, tx'.Sound s.objects → tx'.digests = tx.digests →
      Inv (s.setTx t (some tx')) := fun hsound' hdigests =>
    h.setTx (fun _ => id) hsound' fun k sweep hk => hdigests ▸ hapart k sweep ht hk
  rw [Store.perform] at hstep
  cases htodo : tx.todo with
  | nil =>
    rw [htodo] at hstep
    cases hstep
  | cons op rest =>
    rw [htodo] at hstep
    cases op with
    | put d =>
      cases hstep
      rw [Store.put]
      split_ifs with hstored
      · exact hset (hsound.adjust htodo tx.count tx.refs fun _ _ => ⟨rfl, rfl⟩) rfl
      · have hmono : ∀ d', s.objects d' = true → Function.update s.objects d true d' = true := by
          intro d' hd'
          rcases eq_or_ne d' d with rfl | hne
          · exact Function.update_self ..
          · rwa [Function.update_of_ne hne]
        refine h.setTx hmono ⟨fun d' hd' => ?_, ?_, hsound.others⟩ fun k sweep hk => hapart k sweep ht hk
        · rcases List.mem_cons.mp hd' with rfl | hd'
          · exact ⟨Function.update_self .., hsound.todo (.put d') (htodo ▸ List.mem_cons_self)⟩
          · exact ⟨hmono d' (hsound.inserted d' hd').1, (hsound.inserted d' hd').2⟩
        · exact fun op hop => hsound.todo op (htodo ▸ List.mem_cons_of_mem _ hop)
    | retain d =>
      cases hstep
      exact hset (hsound.adjust htodo _ tx.refs fun d' hne => ⟨Function.update_of_ne hne .., rfl⟩) rfl
    | release d =>
      cases hstep
      exact hset (hsound.adjust htodo _ tx.refs fun d' hne => ⟨Function.update_of_ne hne .., rfl⟩) rfl
    | refer d =>
      cases hstep
      exact hset (hsound.adjust htodo tx.count _ fun d' hne => ⟨rfl, Function.update_of_ne hne ..⟩) rfl
    | unrefer d =>
      cases hstep
      exact hset (hsound.adjust htodo tx.count _ fun d' hne => ⟨rfl, Function.update_of_ne hne ..⟩) rfl

/-- A commit that moves the counts as it moves the references. -/
theorem Inv.apply (h : Inv s) (ht : s.txs t = some tx) (hfits : s.Fits tx)
    (hcounted : tx.count = tx.refs) : Inv (s.apply t tx) := by
  have hsound := h.txs t tx ht
  have hrows : Inv { s with blobs := s.rowAfter tx, refs := fun d => (s.refs d + tx.refs d).toNat } := by
    refine ⟨fun d row hrow => ?_, fun d hrow => ?_, fun d row hrow => ?_, h.deleted,
      fun k sweep hk d hd => ?_, h.txs, h.apart⟩
    · simp only [Store.rowAfter] at hrow
      split_ifs at hrow with hinserted
      · cases hrow
        have hnone := (hfits d (hsound.inserted d hinserted).2).1 hinserted
        simp [h.absent d hnone, hcounted]
      · obtain ⟨old, hold, rfl⟩ := Option.map_eq_some_iff.mp hrow
        simp only [h.counted d old hold, hcounted]
    · simp only [Store.rowAfter] at hrow
      split_ifs at hrow with hinserted
      have hnone := Option.map_eq_none_iff.mp hrow
      have hrefs : tx.refs d = 0 := by
        by_cases hd : d ∈ tx.digests
        · by_contra hne
          rcases (hfits d hd).2.1 (hcounted ▸ hne) with hsome | hmem
          · rw [hnone] at hsome
            cases hsome
          · exact hinserted hmem
        · exact (hsound.others d hd).2
      simp [h.absent d hnone, hrefs]
    · simp only [Store.rowAfter] at hrow
      split_ifs at hrow with hinserted
      · exact Or.inl (hsound.inserted d hinserted).1
      · obtain ⟨row, hrow, -⟩ := Option.map_eq_some_iff.mp hrow
        exact h.objects d row hrow
    · have hd' : d ∉ tx.digests := fun hmem => by
        rw [h.apart t tx k sweep ht hk d hmem] at hd
        cases hd
      simp [h.unnamed k sweep hk d hd, (hsound.others d hd').2]
  exact hrows.dropTx

/-! ## Sweeps -/

theorem sweeps_setSweep {j : ℕ} {o : Option Sweep} (h : (s.setSweep k o).sweeps j = some sweep) :
    j = k ∧ o = some sweep ∨ j ≠ k ∧ s.sweeps j = some sweep := by
  change Function.update s.sweeps k o j = some sweep at h
  rcases eq_or_ne j k with rfl | hne
  · rw [Function.update_self] at h
    exact Or.inl ⟨rfl, h⟩
  · rw [Function.update_of_ne hne] at h
    exact Or.inr ⟨hne, h⟩

theorem Inv.dropSweep (h : Inv s) (hk : s.sweeps k = some sweep)
    (hrows : ∀ d ∈ sweep.deleted, s.blobs d = none) : Inv (s.setSweep k none) where
  counted := h.counted
  absent := h.absent
  objects d row hrow := by
    rcases h.objects d row hrow with hobject | ⟨j, other, hj, hdeleted⟩
    · exact Or.inl hobject
    · rcases eq_or_ne j k with rfl | hne
      · obtain rfl := Option.some.inj (hk.symm.trans hj)
        exact absurd ((hrows d hdeleted).symm.trans hrow) (by rintro ⟨⟩)
      · exact Or.inr ⟨j, other, (Function.update_of_ne hne ..).trans hj, hdeleted⟩
  deleted j other hj := by
    rcases sweeps_setSweep hj with ⟨-, he⟩ | ⟨-, hj⟩
    · cases he
    · exact h.deleted j other hj
  unnamed j other hj := by
    rcases sweeps_setSweep hj with ⟨-, he⟩ | ⟨-, hj⟩
    · cases he
    · exact h.unnamed j other hj
  txs := h.txs
  apart u tx j other hu hj := by
    rcases sweeps_setSweep hj with ⟨-, he⟩ | ⟨-, hj⟩
    · cases he
    · exact h.apart u tx j other hu hj

theorem collectable_eq_true {grace : ℕ} (h : Inv s) (hd : s.collectable grace d = true) :
    s.refs d = 0 := by
  rw [Store.collectable] at hd
  cases hrow : s.blobs d with
  | none => exact h.absent d hrow
  | some row =>
    rw [hrow] at hd
    simp only [Bool.and_eq_true, decide_eq_true_eq] at hd
    rw [← h.counted d row hrow]
    exact hd.1

theorem Inv.select {grace : ℕ} (h : Inv s) (hk : s.sweeps k = none)
    (hselected : ∀ t tx, s.txs t = some tx → ∀ d ∈ tx.digests, s.collectable grace d = false) :
    Inv (s.setSweep k (some ⟨s.collectable grace, []⟩)) where
  counted := h.counted
  absent := h.absent
  objects d row hrow := by
    rcases h.objects d row hrow with hobject | ⟨j, other, hj, hdeleted⟩
    · exact Or.inl hobject
    · have hne : j ≠ k := by
        rintro rfl
        rw [hk] at hj
        cases hj
      exact Or.inr ⟨j, other, (Function.update_of_ne hne ..).trans hj, hdeleted⟩
  deleted j other hj := by
    rcases sweeps_setSweep hj with ⟨-, he⟩ | ⟨-, hj⟩
    · cases he
      rintro d ⟨⟩
    · exact h.deleted j other hj
  unnamed j other hj := by
    rcases sweeps_setSweep hj with ⟨-, he⟩ | ⟨-, hj⟩
    · cases he
      intro d hd
      have hrefs : s.refs d = 0 := collectable_eq_true h hd
      exact hrefs
    · exact h.unnamed j other hj
  txs := h.txs
  apart u tx j other hu hj := by
    rcases sweeps_setSweep hj with ⟨-, he⟩ | ⟨-, hj⟩
    · cases he
      exact hselected u tx hu
    · exact h.apart u tx j other hu hj

theorem Inv.deleteObject (h : Inv s) (hk : s.sweeps k = some sweep)
    (hd : sweep.candidates d = true) :
    Inv ({ s with objects := Function.update s.objects d false }.setSweep k
      (some { sweep with deleted := d :: sweep.deleted })) where
  counted := h.counted
  absent := h.absent
  objects d' row hrow := by
    have hself : ∀ d' ∈ d :: sweep.deleted, ∃ j other,
        (s.setSweep k (some { sweep with deleted := d :: sweep.deleted })).sweeps j = some other ∧
          d' ∈ other.deleted := by
      intro d' hd'
      exact ⟨k, _, Function.update_self .., hd'⟩
    rcases eq_or_ne d' d with rfl | hne
    · exact Or.inr (hself d' List.mem_cons_self)
    · rcases h.objects d' row hrow with hobject | ⟨j, other, hj, hdeleted⟩
      · exact Or.inl ((Function.update_of_ne hne ..).trans hobject)
      · rcases eq_or_ne j k with rfl | hjk
        · obtain rfl := Option.some.inj (hk.symm.trans hj)
          exact Or.inr (hself d' (List.mem_cons_of_mem _ hdeleted))
        · exact Or.inr ⟨j, other, (Function.update_of_ne hjk ..).trans hj, hdeleted⟩
  deleted j other hj := by
    rcases sweeps_setSweep hj with ⟨-, he⟩ | ⟨-, hj⟩
    · cases he
      intro d' hd'
      rcases List.mem_cons.mp hd' with rfl | hd'
      · exact hd
      · exact h.deleted k sweep hk d' hd'
    · exact h.deleted j other hj
  unnamed j other hj := by
    rcases sweeps_setSweep hj with ⟨-, he⟩ | ⟨-, hj⟩
    · cases he
      exact h.unnamed k sweep hk
    · exact h.unnamed j other hj
  txs u tx hu := by
    refine (h.txs u tx hu).mono fun d' hd' hobject => ?_
    have hne : d' ≠ d := by
      rintro rfl
      rw [h.apart u tx k sweep hu hk d' hd'] at hd
      cases hd
    exact (Function.update_of_ne hne ..).trans hobject
  apart u tx j other hu hj := by
    rcases sweeps_setSweep hj with ⟨-, he⟩ | ⟨-, hj⟩
    · cases he
      exact h.apart u tx k sweep hu hk
    · exact h.apart u tx j other hu hj

theorem Inv.finish (h : Inv s) (hk : s.sweeps k = some sweep) :
    Inv ({ s with blobs := fun d => if d ∈ sweep.deleted then none else s.blobs d }.setSweep k none) := by
  have hrows : Inv { s with blobs := fun d => if d ∈ sweep.deleted then none else s.blobs d } := by
    refine ⟨fun d row hrow => ?_, fun d hrow => ?_, fun d row hrow => ?_, h.deleted, h.unnamed, h.txs,
      h.apart⟩
    · simp only at hrow
      split_ifs at hrow
      exact h.counted d row hrow
    · simp only at hrow
      split_ifs at hrow with hdeleted
      · exact h.unnamed k sweep hk d (h.deleted k sweep hk d hdeleted)
      · exact h.absent d hrow
    · simp only at hrow
      split_ifs at hrow
      exact h.objects d row hrow
  exact hrows.dropSweep hk fun d hd => if_pos hd

/-! ## Every step -/

theorem inv_step (h : Inv s) (hstep : step s e = some s') (hcareful : Careful s e s') : Inv s' := by
  cases e with
  | tick =>
    cases hstep
    exact ⟨h.counted, h.absent, h.objects, h.deleted, h.unnamed, h.txs, h.apart⟩
  | start t w =>
    simp only [step] at hstep
    split at hstep
    · cases hstep
      refine h.setTx (fun _ => id) ⟨by rintro d ⟨⟩, fun op hop => List.mem_map_of_mem hop,
        fun _ _ => ⟨rfl, rfl⟩⟩ fun k sweep hk => hcareful.started t w k sweep rfl hk
    · cases hstep
  | perform t =>
    obtain ⟨tx, ht, hstep⟩ := Option.bind_eq_some_iff.mp hstep
    exact h.perform ht hstep
  | commit t =>
    obtain ⟨tx, ht, hstep⟩ := Option.bind_eq_some_iff.mp hstep
    split_ifs at hstep with htodo hfits
    · cases hstep
      exact h.apply ht hfits (hcareful.counted t tx rfl ht hfits)
    · cases hstep
      exact h.dropTx
  | rollback t =>
    obtain ⟨tx, ht, hstep⟩ := Option.bind_eq_some_iff.mp hstep
    cases hstep
    exact h.dropTx
  | select k grace =>
    simp only [step] at hstep
    split at hstep
    · rename_i hk
      cases hstep
      exact h.select hk fun t tx ht => hcareful.selected k grace t tx rfl ht
    · cases hstep
  | deleteObject k d =>
    obtain ⟨sweep, hk, hstep⟩ := Option.bind_eq_some_iff.mp hstep
    split_ifs at hstep with hd
    cases hstep
    exact h.deleteObject hk hd
  | finish k =>
    obtain ⟨sweep, hk, hstep⟩ := Option.bind_eq_some_iff.mp hstep
    cases hstep
    exact h.finish hk
  | abandon k =>
    obtain ⟨sweep, hk, hstep⟩ := Option.bind_eq_some_iff.mp hstep
    cases hstep
    refine h.dropSweep hk fun d hd => ?_
    rw [hcareful.finished k sweep rfl hk] at hd
    cases hd

/-- In every run of careful steps each digest that a committed row names keeps its row and its
object, and each count is the number of rows that name the digest. -/
theorem content_kept (events : List Event) (hcareful : Always step Careful .init events) :
    Always step (fun _ _ s' => Live s') .init events :=
  hcareful.imp (fun _ _ _ h hstep hc => ⟨inv_step h hstep hc, (inv_step h hstep hc).live⟩) inv_init

/-- The steps of which nothing is asked. -/
def Event.free : Event → Bool
  | .start .. | .commit _ | .select .. | .abandon _ => false
  | _ => true

theorem careful_of_free {e : Event} (h : e.free = true) : Careful s e s' := by
  constructor <;> intros <;> subst_vars <;> cases h

/-- A trace is written while a sweep deletes an output that no row names. -/
def traced : List Event :=
  [.start 1 (.storeOutput "draft"), .perform 1, .commit 1, .tick, .select 2 0,
    .start 3 (.writeTrace "d"), .deleteObject 2 "draft", .perform 3, .perform 3, .perform 3,
    .finish 2, .commit 3]

theorem traced_careful : Always step Careful .init traced := by
  rintro _ ⟨⟩
  refine ⟨⟨by rintro _ _ ⟨⟩, by rintro _ _ _ _ - ⟨⟩, by rintro _ _ _ _ ⟨⟩, by rintro _ _ ⟨⟩⟩, ?_⟩
  rintro _ ⟨⟩
  refine ⟨careful_of_free rfl, ?_⟩
  rintro _ ⟨⟩
  refine ⟨⟨?_, by rintro _ _ _ _ ⟨⟩, by rintro _ _ _ _ ⟨⟩, by rintro _ _ ⟨⟩⟩, ?_⟩
  · rintro _ _ ⟨⟩ ⟨⟩ -
    rfl
  rintro _ ⟨⟩
  refine ⟨careful_of_free rfl, ?_⟩
  rintro _ ⟨⟩
  refine ⟨⟨by rintro _ _ ⟨⟩, by rintro _ _ _ _ ⟨⟩, ?_, by rintro _ _ ⟨⟩⟩, ?_⟩
  · -- The output's transaction has ended.
    rintro _ _ t tx ⟨⟩ ht
    change Function.update (Function.update (Function.update (fun _ => none) 1 _) 1 _) 1 none t =
      some tx at ht
    simp only [Function.update_apply] at ht
    split_ifs at ht
  rintro _ ⟨⟩
  refine ⟨⟨by rintro _ _ ⟨⟩, ?_, by rintro _ _ _ _ ⟨⟩, by rintro _ _ ⟨⟩⟩, ?_⟩
  · -- The trace is not a candidate of the sweep.
    rintro _ _ k sweep ⟨⟩ hk
    change Function.update (fun _ => none) 2 (some _) k = some sweep at hk
    by_cases hsweep : k = 2
    · rw [hsweep, Function.update_self] at hk
      cases hk
      intro d hd
      obtain rfl : d = "d" := by simpa [Writer.digests, Writer.ops, Op.digest] using hd
      rfl
    · rw [Function.update_of_ne hsweep] at hk
      cases hk
  iterate 5
    rintro _ ⟨⟩
    refine ⟨careful_of_free rfl, ?_⟩
  rintro _ ⟨⟩
  refine ⟨⟨?_, by rintro _ _ _ _ ⟨⟩, by rintro _ _ _ _ ⟨⟩, by rintro _ _ ⟨⟩⟩, trivial⟩
  rintro _ _ ⟨⟩ ⟨⟩ -
  rfl

theorem traced_kept : (run step .init traced).isSome = true ∧
    Always step (fun _ _ s' => Live s') .init traced :=
  ⟨rfl, content_kept traced traced_careful⟩

/-- A compiled bundle is stored without a reference to it, and a sweep deletes it. -/
theorem compiledBundle_collected :
    ¬ ∀ events, Always step (fun _ _ s' => Live s') .init events := by
  intro h
  have hlast := (h ([.start 1 (.ratingCompile "d" none), .perform 1, .perform 1, .commit 1, .tick,
    .select 2 0, .deleteObject 2 "d"] ++ [.finish 2])).last rfl rfl
  obtain ⟨row, hrow, -⟩ := hlast.kept "d" (by decide)
  cases hrow

end GiPricing.Blobs
