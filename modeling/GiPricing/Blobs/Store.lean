import GiPricing.Transition.Run
import Mathlib.Logic.Function.Basic
import Mathlib.Tactic

/-! # The blob store

A digest has a row with its reference count and an object. Writers put and retain in a transaction
with the row that stores the digest. A sweep takes the unreferenced rows past their grace period,
deletes their objects one by one and then commits the deletion of the rows.
-/

namespace GiPricing.Blobs

abbrev Digest := String

structure BlobRow where
  refCount : ℕ
  createdAt : ℕ
  deriving DecidableEq

/-- What a transaction does to a digest: an operation of the store, or a row of the platform that
starts or ceases to name it. -/
inductive Op
  | put (d : Digest)
  | retain (d : Digest)
  | release (d : Digest)
  | refer (d : Digest)
  | unrefer (d : Digest)
  deriving DecidableEq

def Op.digest : Op → Digest
  | put d | retain d | release d | refer d | unrefer d => d

/-- The transactions of the platform that touch a digest. A job stores its outputs in one and the
row of its result in another. -/
inductive Writer
  | writeTrace (d : Digest)
  | completePendingTrace (d : Digest)
  | deleteTrace (d : Digest)
  | structuralDiffGate (d : Digest) (previous : Option Digest)
  | persistNewVersion (d : Digest)
  | ratingCompile (d : Digest) (previous : Option Digest)
  | ratingRegression (d : Digest)
  | buildCellsArtifact (chunks : List Digest) (manifest : Digest)
  | storeOutput (d : Digest)
  | jobSucceeded (ds : List Digest)

def Writer.ops : Writer → List Op
  | writeTrace d | completePendingTrace d => [.put d, .retain d, .refer d]
  | deleteTrace d => [.release d, .unrefer d]
  | structuralDiffGate d previous =>
    [.put d, .retain d, .refer d] ++ previous.toList.map .unrefer
  | persistNewVersion d | ratingRegression d => [.put d, .refer d]
  | ratingCompile d previous => [.put d, .refer d] ++ previous.toList.map .unrefer
  | buildCellsArtifact chunks manifest => chunks.map .put ++ [.put manifest]
  | storeOutput d => [.put d]
  | jobSucceeded ds => ds.map .refer

def Writer.digests (w : Writer) : List Digest := w.ops.map Op.digest

/-- An open transaction: what is left to do, the rows it inserts, and how far it moves the counts
and the references. -/
structure Tx where
  digests : List Digest
  startedAt : ℕ
  todo : List Op
  inserted : List Digest
  count : Digest → ℤ
  refs : Digest → ℤ

/-- A sweep under way: its candidates, and those whose objects it has deleted. -/
structure Sweep where
  candidates : Digest → Bool
  deleted : List Digest

structure Store where
  now : ℕ
  blobs : Digest → Option BlobRow
  objects : Digest → Bool
  /-- How many committed rows name the digest. -/
  refs : Digest → ℕ
  txs : ℕ → Option Tx
  sweeps : ℕ → Option Sweep

namespace Store

variable (s : Store)

def init : Store :=
  ⟨0, fun _ => none, fun _ => false, fun _ => 0, fun _ => none, fun _ => none⟩

def setTx (t : ℕ) (tx : Option Tx) : Store := { s with txs := Function.update s.txs t tx }

def setSweep (k : ℕ) (sweep : Option Sweep) : Store :=
  { s with sweeps := Function.update s.sweeps k sweep }

/-- `ref_count == 0` and `created_at < cutoff`. -/
def collectable (grace : ℕ) (d : Digest) : Bool := match s.blobs d with
  | some row => row.refCount = 0 && decide (row.createdAt + grace < s.now)
  | none => false

/-- `put`: identical content is a no-op. -/
def put (t : ℕ) (tx : Tx) (d : Digest) (rest : List Op) : Store :=
  if (s.blobs d).isSome ∨ d ∈ tx.inserted then s.setTx t (some { tx with todo := rest })
  else
    { s with objects := Function.update s.objects d true }.setTx t
      (some { tx with todo := rest, inserted := d :: tx.inserted })

/-- The next operation of a transaction. -/
def perform (t : ℕ) (tx : Tx) : Option Store := match tx.todo with
  | [] => none
  | .put d :: rest => some (s.put t tx d rest)
  | .retain d :: rest => some <| s.setTx t <| some
    { tx with todo := rest, count := Function.update tx.count d (tx.count d + 1) }
  | .release d :: rest => some <| s.setTx t <| some
    { tx with todo := rest, count := Function.update tx.count d (tx.count d - 1) }
  | .refer d :: rest => some <| s.setTx t <| some
    { tx with todo := rest, refs := Function.update tx.refs d (tx.refs d + 1) }
  | .unrefer d :: rest => some <| s.setTx t <| some
    { tx with todo := rest, refs := Function.update tx.refs d (tx.refs d - 1) }

/-- A transaction commits where its inserted rows are new, the rows it counts are there, and no
count is negative. -/
def Fits (tx : Tx) : Prop := ∀ d ∈ tx.digests,
  (d ∈ tx.inserted → s.blobs d = none) ∧
  (tx.count d ≠ 0 → (s.blobs d).isSome ∨ d ∈ tx.inserted) ∧
  0 ≤ (((s.blobs d).map BlobRow.refCount).getD 0 : ℤ) + tx.count d ∧
  0 ≤ (s.refs d : ℤ) + tx.refs d

instance (tx : Tx) : Decidable (s.Fits tx) := inferInstanceAs (Decidable (∀ _ ∈ _, _))

def rowAfter (tx : Tx) (d : Digest) : Option BlobRow :=
  if d ∈ tx.inserted then some ⟨(tx.count d).toNat, tx.startedAt⟩
  else (s.blobs d).map fun row => { row with refCount := (row.refCount + tx.count d).toNat }

def apply (t : ℕ) (tx : Tx) : Store :=
  { s with blobs := s.rowAfter tx, refs := fun d => (s.refs d + tx.refs d).toNat }.setTx t none

end Store

inductive Event
  | tick
  | start (t : ℕ) (w : Writer)
  | perform (t : ℕ)
  | commit (t : ℕ)
  | rollback (t : ℕ)
  | select (k : ℕ) (grace : ℕ)
  | deleteObject (k : ℕ) (d : Digest)
  | finish (k : ℕ)
  | abandon (k : ℕ)

/-- A transaction that does not fit is rolled back. The objects it has put stay. -/
def step (s : Store) : Event → Option Store
  | .tick => some { s with now := s.now + 1 }
  | .start t w => match s.txs t with
    | none => some (s.setTx t (some ⟨w.digests, s.now, w.ops, [], fun _ => 0, fun _ => 0⟩))
    | some _ => none
  | .perform t => (s.txs t).bind (s.perform t)
  | .commit t => (s.txs t).bind fun tx =>
    if tx.todo = [] then some (if s.Fits tx then s.apply t tx else s.setTx t none) else none
  | .rollback t => (s.txs t).bind fun _ => some (s.setTx t none)
  | .select k grace => match s.sweeps k with
    | none => some (s.setSweep k (some ⟨s.collectable grace, []⟩))
    | some _ => none
  | .deleteObject k d => (s.sweeps k).bind fun sweep =>
    if sweep.candidates d then
      some ({ s with objects := Function.update s.objects d false }.setSweep k
        (some { sweep with deleted := d :: sweep.deleted }))
    else none
  | .finish k => (s.sweeps k).bind fun sweep =>
    some ({ s with blobs := fun d => if d ∈ sweep.deleted then none else s.blobs d }.setSweep k none)
  | .abandon k => (s.sweeps k).bind fun _ => some (s.setSweep k none)

end GiPricing.Blobs
