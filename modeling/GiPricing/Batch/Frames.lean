import GiPricing.Attribution.Changes
import GiPricing.Score.Value

/-! # Scored frames

`score_batch` over a frame in chunks, and the counts that a run takes of its chunks. The chunk size
changes neither.
-/

namespace GiPricing.Batch

open Failure

abbrev Row := Dict Value

/-- A row of the output schema. -/
structure BatchRow where
  quoteId : Option String
  outcome : String
  ratingVersionRef : Value
  bundleHash : String
  premiumLadderJson : Option String
  outputsJson : Option String
  declineReasons : List String
  errorCode : Option String
  errorMessage : Option String
  deriving DecidableEq

inductive RowScore
  | undesigned
  | failed (code message : String)
  | scored (outcome bundleHash : String) (premiumLadderJson outputsJson : Option String)
      (declineReasons : List String)

/-- The bundles by content hash, each by what it makes of a row, and `str`. -/
structure Scorer where
  str : Value → String
  score : String → Row → RowScore

inductive BatchFailure
  | chunkRows
  | notImplemented
  deriving DecidableEq

def refColumn : String := "rating_version_ref"

/-- `_score_batch_row`: an undesigned case is let through, any other failure is an error row. -/
def scoreBatchRow (s : Scorer) (contentHash : String) (row : Row) : Except BatchFailure BatchRow :=
  let quoteId := match row.get? "quote_id" with
    | none | some .null => none
    | some v => some (s.str v)
  let ref := (row.get? refColumn).getD .null
  match s.score contentHash row with
  | .undesigned => .error .notImplemented
  | .failed code message =>
    .ok ⟨quoteId, "error", ref, contentHash, none, none, [], some code, some message⟩
  | .scored outcome bundleHash ladder outputs reasons =>
    .ok ⟨quoteId, outcome, ref, bundleHash, ladder, outputs, reasons, none, none⟩

def scoreBatchChunk (s : Scorer) (contentHash : String) (chunk : List Row) :
    Except BatchFailure (List BatchRow) := chunk.mapM (scoreBatchRow s contentHash)

/-- The loop of `score_batch` over the rows that are left, in at most as many rounds as there are
rows. -/
def scoreRest (s : Scorer) (contentHash : String) (chunkRows : ℕ) :
    ℕ → List Row → Except BatchFailure (List BatchRow)
  | _, [] | 0, _ => .ok []
  | rounds + 1, row :: rows => do
    let chunk ← scoreBatchChunk s contentHash ((row :: rows).take chunkRows)
    let rest ← scoreRest s contentHash chunkRows rounds ((row :: rows).drop chunkRows)
    return chunk ++ rest

def scoreBatch (s : Scorer) (contentHash : String) (frame : List Row) (chunkRows : ℕ) :
    Except BatchFailure (List BatchRow) :=
  if 0 < chunkRows then scoreRest s contentHash chunkRows frame.length frame
  else .error .chunkRows

/-- `_dataset_frame`: the table with the resolved ref in each row. -/
def datasetFrame (table : List Row) (ref : ArtifactRef) : List Row :=
  table.map fun row => row.insert refColumn (.text (Attribution.refText ref))

/-- `frame.slice(offset, chunk_rows)` of a chunk. -/
def chunkOf (frame : List Row) (chunkRows chunkIndex : ℕ) : List Row :=
  (frame.drop (chunkIndex * chunkRows)).take chunkRows

def nChunks (totalRows chunkRows : ℕ) : ℕ :=
  if totalRows = 0 then 0 else max 1 ((totalRows + chunkRows - 1) / chunkRows)

/-! ## The counts -/

structure RefStats where
  rowCount : ℕ
  outcomeCounts : String → ℕ
  errorCounts : Option String → ℕ
  errorSamples : Option String → List (Option String)

namespace RefStats

def maxErrorSamples : ℕ := 5

def empty : RefStats := ⟨0, fun _ => 0, fun _ => 0, fun _ => []⟩

def observeRow (st : RefStats) (row : BatchRow) : RefStats :=
  let counted : RefStats := { st with
    rowCount := st.rowCount + 1
    outcomeCounts := Function.update st.outcomeCounts row.outcome (st.outcomeCounts row.outcome + 1) }
  if row.outcome = "error" then
    { counted with
      errorCounts := Function.update st.errorCounts row.errorCode (st.errorCounts row.errorCode + 1)
      errorSamples :=
        if (st.errorSamples row.errorCode).length < maxErrorSamples then
          Function.update st.errorSamples row.errorCode
            (st.errorSamples row.errorCode ++ [row.errorMessage])
        else st.errorSamples }
  else counted

def observe (st : RefStats) (chunk : List BatchRow) : RefStats := chunk.foldl observeRow st

theorem observe_append (st : RefStats) (chunk rest : List BatchRow) :
    st.observe (chunk ++ rest) = (st.observe chunk).observe rest := List.foldl_append

end RefStats

/-! ## Chunks and the whole -/

variable {s : Scorer} {contentHash : String} {frame : List Row} {chunkRows i : ℕ}
  {out chunk : List BatchRow}

theorem scoreRest_eq {rounds : ℕ} (h : 0 < chunkRows) (hrounds : frame.length ≤ rounds) :
    scoreRest s contentHash chunkRows rounds frame = frame.mapM (scoreBatchRow s contentHash) := by
  induction rounds generalizing frame with
  | zero =>
    rw [List.length_eq_zero_iff.mp (Nat.le_zero.mp hrounds)]
    rfl
  | succ rounds ih =>
    cases frame with
    | nil => rfl
    | cons row rows =>
      have hrest : ((row :: rows).drop chunkRows).length ≤ rounds := by
        rw [List.length_drop]
        omega
      rw [scoreRest, ih hrest, scoreBatchChunk, ← List.mapM_append, List.take_append_drop]

theorem scoreBatch_eq (h : 0 < chunkRows) :
    scoreBatch s contentHash frame chunkRows = frame.mapM (scoreBatchRow s contentHash) := by
  rw [scoreBatch, if_pos h, scoreRest_eq h le_rfl]

theorem scored_take_succ
    (h : (frame.take (i * chunkRows)).mapM (scoreBatchRow s contentHash) = .ok out)
    (hchunk : scoreBatch s contentHash (chunkOf frame chunkRows i) chunkRows = .ok chunk)
    (hpos : 0 < chunkRows) :
    (frame.take ((i + 1) * chunkRows)).mapM (scoreBatchRow s contentHash) = .ok (out ++ chunk) := by
  rw [scoreBatch_eq hpos] at hchunk
  rw [chunkOf] at hchunk
  rw [Nat.succ_mul, List.take_add, List.mapM_append, h, hchunk]
  rfl

theorem length_le_nChunks (hpos : 0 < chunkRows) :
    frame.length ≤ nChunks frame.length chunkRows * chunkRows := by
  rw [nChunks]
  split_ifs with h
  · omega
  · have hdiv : frame.length ≤ (frame.length + chunkRows - 1) / chunkRows * chunkRows := by
      have hmod := Nat.div_add_mod (frame.length + chunkRows - 1) chunkRows
      have hlt := Nat.mod_lt (frame.length + chunkRows - 1) hpos
      rw [Nat.mul_comm] at hmod
      omega
    exact hdiv.trans (Nat.mul_le_mul_right _ (le_max_right _ _))

theorem scored_whole
    (h : (frame.take (i * chunkRows)).mapM (scoreBatchRow s contentHash) = .ok out)
    (hpos : 0 < chunkRows) (hi : nChunks frame.length chunkRows ≤ i) :
    frame.mapM (scoreBatchRow s contentHash) = .ok out := by
  have hlen : frame.length ≤ i * chunkRows :=
    (length_le_nChunks hpos).trans (Nat.mul_le_mul_right _ hi)
  rwa [List.take_of_length_le hlen] at h

theorem scoreBatchRow_ref {row : Row} {o : BatchRow}
    (h : scoreBatchRow s contentHash row = .ok o) :
    o.ratingVersionRef = (row.get? refColumn).getD .null := by
  simp only [scoreBatchRow] at h
  split at h
  · cases h
  · cases h; rfl
  · cases h; rfl

theorem scored_rows {table : List Row} {ref : ArtifactRef}
    (h : (datasetFrame table ref).mapM (scoreBatchRow s contentHash) = .ok out) :
    List.Forall₂ (fun row o => scoreBatchRow s contentHash
        (row.insert refColumn (.text (Attribution.refText ref))) = .ok o ∧
      o.ratingVersionRef = .text (Attribution.refText ref)) table out := by
  have hrows := mapM_eq_ok.mp h
  rw [datasetFrame, List.forall₂_map_left_iff] at hrows
  refine hrows.imp fun row o ho => ⟨ho, ?_⟩
  rw [scoreBatchRow_ref ho, Dict.get?_insert, if_pos rfl]
  rfl

end GiPricing.Batch
