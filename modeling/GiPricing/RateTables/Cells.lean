import GiPricing.Blobs.Store
import GiPricing.Failure.Lists
import GiPricing.Jobs.Lifecycle
import GiPricing.Paging.Pages
import GiPricing.RateTables.RoundTrip
import GiPricing.RateTables.Weights
import GiPricing.Score.Positional
import GiPricing.Text.Base64
import GiPricing.Text.Joined

/-! # The cells of a diff, page by page

A job writes the changed cells in chunks, with a manifest that names them. A page is read from the
chunks that it lies in, and its cursor is where the next one starts.
-/

namespace GiPricing.RateTables.Cells

open Blobs Failure Jobs Paging

abbrev Bytes := List UInt8

/-! ## Cursors -/

/-- `encode_cursor` of a number. -/
def encodeCursor (n : ℕ) : String :=
  String.ofList <| Base64.stripped <| Base64.encode
    (String.ofList (Nat.toDigits 10 n)).toUTF8.data.toList

/-- `_decode_raw`. -/
def decodeRaw (cursor : String) : Option String := do
  let bytes ← Base64.decode (Base64.padded cursor.toList)
  String.fromUTF8? ⟨bytes.toArray⟩

def decodeIntCursor (cursor : String) : Option ℤ := do
  let raw ← decodeRaw cursor
  Portfolio.intOf raw

/-! ## The blobs -/

/-- The blobs by their digest. An object is uploaded before its row is inserted. -/
structure BlobStore (sha256 : Bytes → Digest) where
  rows : Digest → Bool
  objects : Digest → Option Bytes
  row_object : ∀ d, rows d = true → (objects d).isSome
  object_digest : ∀ d content, objects d = some content → sha256 content = d

namespace BlobStore

variable {sha256 : Bytes → Digest} (s : BlobStore sha256)

def empty (sha256 : Bytes → Digest) : BlobStore sha256 :=
  ⟨fun _ => false, fun _ => none, by simp, by simp⟩

/-- `put`: identical content is a no-op. -/
def put (content : Bytes) : BlobStore sha256 :=
  if s.rows (sha256 content) then s
  else
    { rows := Function.update s.rows (sha256 content) true
      objects := Function.update s.objects (sha256 content) (some content)
      row_object := by
        intro d hd
        by_cases h : d = sha256 content
        · simp [h]
        · rw [Function.update_of_ne h] at hd ⊢
          exact s.row_object d hd
      object_digest := by
        intro d stored hd
        by_cases h : d = sha256 content
        · rw [h, Function.update_self] at hd
          rw [h, Option.some.inj hd]
        · rw [Function.update_of_ne h] at hd
          exact s.object_digest d stored hd }

def putAll (contents : List Bytes) : BlobStore sha256 := contents.foldl put s

/-- Every blob of a store is in another one. -/
def Extends (s' : BlobStore sha256) : Prop :=
  ∀ d, s.rows d = true → s'.rows d = true ∧ s'.objects d = s.objects d

/-- A content is there under its digest. -/
def Has (content : Bytes) : Prop :=
  s.rows (sha256 content) = true ∧ s.objects (sha256 content) = some content

/-- The contents that are written and those that are there have different digests. -/
def Distinct (contents : List Bytes) : Prop :=
  Set.InjOn sha256 {content | content ∈ contents ∨ ∃ d, s.objects d = some content}

end BlobStore

/-! ## The artifact -/

structure Manifest (σ : Type) where
  chunkSize : ℕ
  total : ℕ
  chunks : List Digest
  summary : σ
  deriving DecidableEq

/-- What the artifact is written and read with: the JSON of a cell and of a manifest, and the digest. -/
structure Host (κ σ : Type) where
  modelDumpJson : κ → Bytes
  modelValidateJson : Bytes → Option κ
  dumps : Manifest σ → Bytes
  loads : Bytes → Option (Manifest σ)
  sha256 : Bytes → Digest

section

variable {κ σ : Type} (host : Host κ σ)

/-- The chunks of some cells: a line for each cell. -/
def payloads (chunkSize : ℕ) (cells : List κ) : List Bytes :=
  (chunks cells chunkSize).map fun part => Lines.join (part.map host.modelDumpJson)

def manifestOf (chunkSize : ℕ) (cells : List κ) (summary : σ) : Manifest σ :=
  ⟨chunkSize, cells.length, (payloads host chunkSize cells).map host.sha256, summary⟩

/-- `build_cells_artifact` of the cells of a diff and its summary. -/
def buildCellsArtifact (chunkSize : ℕ) (cells : List κ) (summary : σ)
    (store : BlobStore host.sha256) : Digest × BlobStore host.sha256 :=
  let store := store.putAll (payloads host chunkSize cells)
  let manifest := host.dumps (manifestOf host chunkSize cells summary)
  (host.sha256 manifest, store.put manifest)

/-! ## A page -/

/-- A `rate_table.diff_cells` job. -/
structure CellsJob where
  id : UUID
  status : JobStatus
  ref : Option Digest
  deriving DecidableEq

inductive Refusal
  | notFound (ref : String)
  | malformedCursor
  | jsonDecodeError
  | validationError
  | indexError
  | zeroDivision
  deriving DecidableEq

/-- Why cells are not read: a blob is gone, or what was read of it raises. -/
inductive Unread
  | gone
  | raised (e : Refusal)
  deriving DecidableEq

inductive Answer (κ : Type)
  | page (items : List κ) (totalEstimate : ℕ) (nextCursor : Option String)
  | jobNeeded (key : String) (inFlight : Option CellsJob)
  deriving DecidableEq

/-- A request for a page: its key, the jobs of the key from the newest on, whether the references of
the table resolve, the blobs that are there, and the limit. -/
structure Request (sha256 : Bytes → Digest) where
  key : String
  jobs : List CellsJob
  danglingRefs : Except Refusal PUnit
  store : BlobStore sha256
  limit : ℕ

def countCap : ℕ := 10000

/-- The manifest a reference of a job leads to. -/
def manifestAt (store : BlobStore host.sha256) (ref : Option Digest) :
    Except Refusal (Option (Manifest σ)) :=
  match ref with
  | none => .ok none
  | some d =>
    if store.rows d then
      match store.objects d with
      | none => .ok none
      | some content => do
        let manifest ← require (host.loads content) .jsonDecodeError
        return some manifest
    else .ok none

/-- `_find_artifact`, the loop over the jobs with the one in flight so far. -/
def findArtifact (store : BlobStore host.sha256) :
    Option CellsJob → List CellsJob → Except Refusal (Option (Manifest σ) × Option CellsJob)
  | inFlight, [] => .ok (none, inFlight)
  | inFlight, job :: jobs => match job.status with
    | .queued | .running => findArtifact store (inFlight.or (some job)) jobs
    | .succeeded => do
      match ← manifestAt host store job.ref with
      | some manifest => return (some manifest, none)
      | none => findArtifact store inFlight jobs
    | .failed | .cancelled => findArtifact store inFlight jobs

/-- The cells of one chunk that are in an interval. -/
def readChunk (store : BlobStore host.sha256) (manifest : Manifest σ) (start stop index : ℕ) :
    Except Unread (List κ) := do
  let d ← require manifest.chunks[index]? (.raised .indexError)
  ensure (store.rows d = true) .gone
  let content ← require (store.objects d) .gone
  let lines := Lines.split content
  let low := start - index * manifest.chunkSize
  let high := min (stop - index * manifest.chunkSize) lines.length
  (slice lines low high).mapM fun line =>
    require (host.modelValidateJson line) (.raised .validationError)

/-- `_read_cells`: `(stop - 1) // size + 1` is how many chunks reach the end. -/
def readCells (store : BlobStore host.sha256) (manifest : Manifest σ) (start stop : ℕ) :
    Except Unread (List κ) := do
  let size := manifest.chunkSize
  ensure (size ≠ 0) (.raised .zeroDivision)
  let parts ← (List.range' (start / size) (count stop size - start / size)).mapM
    (readChunk host store manifest start stop)
  return parts.flatten

/-- Where a page starts: at the front, or at a cursor inside the cells. -/
def startOf (total : ℕ) : Option String → Except Refusal ℕ
  | none => .ok 0
  | some cursor => do
    let n ← require (decodeIntCursor cursor) .malformedCursor
    ensure (0 < n ∧ n < total) .malformedCursor
    return n.toNat

/-- `diff_cells_page`. -/
def diffCellsPage (request : Request host.sha256) (cursor : Option String) :
    Except Refusal (Answer κ) := do
  match ← findArtifact host request.store none request.jobs with
  | (none, inFlight) =>
    if inFlight = none then request.danglingRefs
    return .jobNeeded request.key inFlight
  | (some manifest, _) =>
    let start ← startOf manifest.total cursor
    let stop := min (start + request.limit) manifest.total
    let next := if stop < manifest.total then some (encodeCursor stop) else none
    if manifest.total = 0 then return .page [] 0 next
    else match readCells host request.store manifest start stop with
      | .ok items => return .page items (min manifest.total countCap) next
      | .error .gone => return .jobNeeded request.key none
      | .error (.raised e) => .error e

def Answer.toPage : Answer κ → Option (Page κ String)
  | .page items _ next => some ⟨items, next⟩
  | .jobNeeded _ _ => none

end

/-! ## A cursor is read back -/

/-- The longest list there is: `sys.maxsize`. -/
def maxSize : ℕ := 2 ^ 63 - 1

theorem intOf_toDigits {n : ℕ} (h : (Nat.toDigits 10 n).length ≤ 4300) :
    Portfolio.intOf (String.ofList (Nat.toDigits 10 n)) = some (n : ℤ) := by
  have hdigit : ∀ c ∈ Nat.toDigits 10 n, AsciiDigit c := fun c => asciiDigit_of_mem_toDigits
  have hstrip : strip (String.ofList (Nat.toDigits 10 n)) = Nat.toDigits 10 n := by
    rw [strip, String.toList_ofList, strip_digits fun c hc => (hdigit c hc).isSpace]
  have hsign : Decimal.takeSign (Nat.toDigits 10 n) = (false, Nat.toDigits 10 n) := by
    cases hd : Nat.toDigits 10 n with
    | nil => rfl
    | cons c ds => exact takeSign_digits (hdigit c (hd ▸ List.mem_cons_self))
  have hsplit : (Nat.toDigits 10 n).splitOn '_' = [Nat.toDigits 10 n] :=
    List.splitOn_eq_singleton fun hc => (hdigit _ hc).ne_underscore rfl
  have hparses : parsesInt (String.ofList (Nat.toDigits 10 n)) = true := by
    simpa [parsesInt, hstrip, hsign, hsplit, h] using fun c hc => (hdigit c hc).isDigit
  have hvalue : digitsValue (Nat.toDigits 10 n) = n := by
    simpa using digitsValue_padded 0 n
  rw [Portfolio.intOf, if_pos hparses, hstrip, hsign]
  simp [List.filter_eq_self.mpr fun c hc => (hdigit c hc).isDigit, hvalue]

theorem decodeIntCursor_encodeCursor {n : ℕ} (h : n ≤ maxSize) :
    decodeIntCursor (encodeCursor n) = some (n : ℤ) := by
  have hlen : (Nat.toDigits 10 n).length ≤ 4300 := by
    have hn : n < 10 ^ 19 := h.trans_lt (by norm_num [maxSize])
    exact ((Nat.length_toDigits_le_iff (by norm_num) (by norm_num)).mpr hn).trans (by norm_num)
  have hraw : decodeRaw (encodeCursor n) = some (String.ofList (Nat.toDigits 10 n)) := by
    rw [decodeRaw, encodeCursor, String.toList_ofList, Base64.decode_padded_stripped,
      Option.bind_eq_bind, Option.bind_some, Array.toArray_toList, fromUTF8?_toUTF8]
  rw [decodeIntCursor, hraw, Option.bind_eq_bind, Option.bind_some, intOf_toDigits hlen]

/-! ## What is put is there -/

namespace BlobStore

variable {sha256 : Bytes → Digest} {s s' s'' : BlobStore sha256} {content : Bytes}
  {contents : List Bytes}

theorem Extends.refl : s.Extends s := fun _ h => ⟨h, rfl⟩

theorem Extends.trans (h : s.Extends s') (h' : s'.Extends s'') : s.Extends s'' := fun d hd =>
  have ⟨hrow, hobject⟩ := h d hd
  have ⟨hrow', hobject'⟩ := h' d hrow
  ⟨hrow', hobject'.trans hobject⟩

theorem Has.extends (h : s.Has content) (hs : s.Extends s') : s'.Has content :=
  have ⟨hrow, hobject⟩ := hs _ h.1
  ⟨hrow, hobject.trans h.2⟩

theorem extends_put (s : BlobStore sha256) (content : Bytes) : s.Extends (s.put content) := by
  intro d hd
  unfold put
  split_ifs with h
  · exact ⟨hd, rfl⟩
  · have hne : d ≠ sha256 content := fun he => h (he ▸ hd)
    simp [Function.update_of_ne hne, hd]

theorem objects_put {d : Digest} {stored : Bytes} (h : (s.put content).objects d = some stored) :
    stored = content ∨ s.objects d = some stored := by
  unfold put at h
  split_ifs at h with hrow
  · exact .inr h
  · dsimp only at h
    by_cases hd : d = sha256 content
    · rw [hd, Function.update_self] at h
      exact .inl (Option.some.inj h).symm
    · rw [Function.update_of_ne hd] at h
      exact .inr h

theorem has_put (h : s.Distinct (content :: contents)) : (s.put content).Has content := by
  unfold put Has
  split_ifs with hrow
  · obtain ⟨stored, hstored⟩ := Option.isSome_iff_exists.mp (s.row_object _ hrow)
    have hsame : stored = content := h (.inr ⟨_, hstored⟩) (.inl List.mem_cons_self)
      (s.object_digest _ _ hstored)
    exact ⟨hrow, hsame ▸ hstored⟩
  · simp

theorem Distinct.put (h : s.Distinct (content :: contents)) : (s.put content).Distinct contents := by
  refine h.mono ?_
  rintro stored (hmem | ⟨d, hd⟩)
  · exact .inl (List.mem_cons_of_mem _ hmem)
  · rcases objects_put hd with rfl | hd
    · exact .inl List.mem_cons_self
    · exact .inr ⟨d, hd⟩

theorem extends_putAll (s : BlobStore sha256) (contents : List Bytes) :
    s.Extends (s.putAll contents) := by
  induction contents generalizing s with
  | nil => exact .refl
  | cons content contents ih => exact (extends_put s content).trans (ih _)

theorem has_putAll (h : s.Distinct contents) : ∀ content ∈ contents, (s.putAll contents).Has content := by
  induction contents generalizing s with
  | nil => simp
  | cons content contents ih =>
    rintro c (_ | ⟨_, hc⟩)
    · exact (has_put h).extends (extends_putAll _ contents)
    · exact ih h.put c hc

theorem putAll_append (contents : List Bytes) : s.putAll (contents ++ [content]) =
    (s.putAll contents).put content := by simp [putAll]

end BlobStore

/-! ## Every page is a slice -/

section

variable {κ σ : Type} {host : Host κ σ} {size start stop : ℕ} {cells : List κ} {summary : σ}

/-- The JSON of the cells, a line each, and of the manifest is read back. -/
structure Host.Reads (host : Host κ σ) (size : ℕ) (cells : List κ) (summary : σ) : Prop where
  cell : ∀ c ∈ cells, host.modelValidateJson (host.modelDumpJson c) = some c
  line : ∀ c ∈ cells, Lines.Single (host.modelDumpJson c)
  manifest : host.loads (host.dumps (manifestOf host size cells summary)) =
    some (manifestOf host size cells summary)

def written (host : Host κ σ) (size : ℕ) (cells : List κ) (summary : σ) : List Bytes :=
  payloads host size cells ++ [host.dumps (manifestOf host size cells summary)]

theorem buildCellsArtifact_store (store : BlobStore host.sha256) :
    (buildCellsArtifact host size cells summary store).2 =
      store.putAll (written host size cells summary) :=
  (BlobStore.putAll_append _).symm

theorem mem_of_mem_slice {c : κ} (h : c ∈ slice cells start stop) : c ∈ cells :=
  List.mem_of_mem_take (List.mem_of_mem_drop h)

variable {store : BlobStore host.sha256}

theorem mapM_validate (hreads : host.Reads size cells summary) {part : List κ}
    (hpart : ∀ c ∈ part, c ∈ cells) :
    ((part.map host.modelDumpJson).mapM fun line =>
      require (host.modelValidateJson line) (Unread.raised .validationError)) = .ok part := by
  rw [mapM_eq_ok, List.forall₂_map_left_iff, List.forall₂_same]
  exact fun c hc => require_eq_ok.mpr (hreads.cell c (hpart c hc))

theorem readChunk_eq (hsize : 1 ≤ size) (hreads : host.Reads size cells summary)
    (hstore : ∀ content ∈ payloads host size cells, store.Has content) (hstop : stop ≤ cells.length)
    {index : ℕ} (h : index * size < stop) :
    readChunk host store (manifestOf host size cells summary) start stop index =
      .ok (piece cells size start stop index) := by
  set payload := Lines.join ((chunk cells size index).map host.modelDumpJson) with hpayload
  have hindex : index < count cells.length size := (lt_count_iff hsize).mpr (h.trans_le hstop)
  have hget : (payloads host size cells)[index]? = some payload := by
    simp [payloads, chunks, hindex, hpayload]
  have hchunk : (manifestOf host size cells summary).chunks[index]? = some (host.sha256 payload) := by
    rw [manifestOf, List.getElem?_map, hget, Option.map_some]
  obtain ⟨hrow, hobject⟩ := hstore payload (List.mem_of_getElem? hget)
  have hlines : Lines.split payload = (chunk cells size index).map host.modelDumpJson := by
    refine Lines.split_join fun line hline => ?_
    obtain ⟨c, hc, rfl⟩ := List.mem_map.mp hline
    exact hreads.line c (mem_of_mem_slice hc)
  have hpart : ∀ c ∈ piece cells size start stop index, c ∈ cells := fun c hc =>
    mem_of_mem_slice (mem_of_mem_slice hc)
  have hread := mapM_validate hreads hpart
  rw [piece, ← slice_map] at hread
  simp only [readChunk, require_bind_eq_ok, ensure_bind_eq_ok]
  refine ⟨_, hchunk, hrow, payload, hobject, ?_⟩
  rw [hlines, List.length_map]
  exact hread

theorem readCells_eq (hsize : 1 ≤ size) (hreads : host.Reads size cells summary)
    (hstore : ∀ content ∈ payloads host size cells, store.Has content) (hlt : start < stop)
    (hstop : stop ≤ cells.length) :
    readCells host store (manifestOf host size cells summary) start stop =
      .ok (slice cells start stop) := by
  have hparts : (List.range' (start / size) (count stop size - start / size)).mapM
      (readChunk host store (manifestOf host size cells summary) start stop) =
      .ok ((List.range' (start / size) (count stop size - start / size)).map
        (piece cells size start stop)) := by
    rw [mapM_eq_ok, List.forall₂_map_right_iff, List.forall₂_same]
    intro index hindex
    have hlast : index < count stop size := by
      have := List.mem_range'_1.mp hindex
      omega
    exact readChunk_eq hsize hreads hstore hstop ((lt_count_iff hsize).mp hlast)
  have hflat := flatMap_piece hsize hlt hstop
  rw [List.flatMap_def] at hflat
  rw [readCells, ensure_bind_eq_ok, Failure.bind_eq_ok]
  exact ⟨Nat.one_le_iff_ne_zero.mp hsize, _, hparts, congrArg Except.ok hflat⟩

/-- The newest job of the list that succeeded leads to an artifact. -/
def Latest (jobs : List CellsJob) (artifact : Digest) : Prop :=
  ∃ newer job older, jobs = newer ++ job :: older ∧
    (∀ j ∈ newer, j.status ≠ .succeeded) ∧ job.status = .succeeded ∧ job.ref = some artifact

theorem findArtifact_eq {jobs : List CellsJob} {content : Bytes} {manifest : Manifest σ}
    (h : Latest jobs (host.sha256 content)) (hstore : store.Has content)
    (hloads : host.loads content = some manifest) (inFlight : Option CellsJob) :
    findArtifact host store inFlight jobs = .ok (some manifest, none) := by
  obtain ⟨newer, job, older, rfl, hnewer, hstatus, href⟩ := h
  induction newer generalizing inFlight with
  | nil =>
    have hmanifest : manifestAt host store job.ref = .ok (some manifest) := by
      simp [manifestAt, href, hstore.1, hstore.2, hloads, require, bind, Except.bind, pure,
        Except.pure]
    simp [findArtifact, hstatus, hmanifest, bind, Except.bind, pure, Except.pure]
  | cons j newer ih =>
    have ih := fun inFlight => ih inFlight fun j' hj' => hnewer j' (List.mem_cons_of_mem _ hj')
    have hj := hnewer j List.mem_cons_self
    cases hs : j.status with
    | succeeded => exact absurd hs hj
    | queued | running | failed | cancelled => simp [findArtifact, hs, ih]

theorem startOf_cursorAt {total start : ℕ} (htotal : total ≤ maxSize) (h : start = 0 ∨ start < total) :
    startOf total (cursorAt encodeCursor start) = .ok start := by
  by_cases h0 : start = 0
  · simp [cursorAt, h0, startOf]
  · have hlt : start < total := h.resolve_left h0
    have hn : (0 : ℤ) < start ∧ (start : ℤ) < total := by omega
    simp only [cursorAt, if_neg h0, startOf, require_bind_eq_ok, ensure_bind_eq_ok]
    exact ⟨start, decodeIntCursor_encodeCursor (by omega), hn, rfl⟩

theorem startOf_refused {total : ℕ} {cursor : String}
    (h : ∀ n, decodeIntCursor cursor = some n → ¬ (0 < n ∧ n < total)) :
    startOf total (some cursor) = .error .malformedCursor := by
  cases hn : decodeIntCursor cursor with
  | none => simp [startOf, hn, require, bind, Except.bind]
  | some n => simp [startOf, hn, require, ensure, h n hn, bind, Except.bind]

/-- A request that finds the artifact of some cells: its job is the newest one that succeeded, and its
blobs are there. -/
structure Request.Finds (request : Request host.sha256) (size : ℕ) (cells : List κ) (summary : σ)
    (store : BlobStore host.sha256) : Prop where
  latest : Latest request.jobs (buildCellsArtifact host size cells summary store).1
  kept : (buildCellsArtifact host size cells summary store).2.Extends request.store

section

variable {request : Request host.sha256} (hreads : host.Reads size cells summary)
  (hdistinct : store.Distinct (written host size cells summary))
  (hfinds : request.Finds size cells summary store)

include hdistinct hfinds

theorem has_written : ∀ content ∈ written host size cells summary, request.store.Has content := by
  intro content hc
  have hkept := hfinds.kept
  rw [buildCellsArtifact_store] at hkept
  exact (BlobStore.has_putAll hdistinct content hc).extends hkept

include hreads

theorem findArtifact_built : findArtifact host request.store none request.jobs =
    .ok (some (manifestOf host size cells summary), none) :=
  findArtifact_eq hfinds.latest
    (has_written hdistinct hfinds _ (List.mem_append_right _ List.mem_cons_self)) hreads.manifest none

theorem diffCellsPage_eq (hsize : 1 ≤ size) (hlimit : 1 ≤ request.limit)
    (hcells : cells.length ≤ maxSize) (hstart : start = 0 ∨ start < cells.length) :
    ∃ page, diffCellsPage host request (cursorAt encodeCursor start) = .ok page ∧
      page.toPage = some (pageAt encodeCursor cells request.limit start) := by
  have hfound := findArtifact_built hreads hdistinct hfinds
  have hat := startOf_cursorAt hcells hstart
  have htotal : (manifestOf host size cells summary).total = cells.length := rfl
  by_cases hempty : cells.length = 0
  · have hpage : pageAt encodeCursor cells request.limit start = ⟨[], none⟩ := by
      simp [pageAt, slice, List.eq_nil_of_length_eq_zero hempty]
    rw [hempty] at hat htotal
    simp [diffCellsPage, hfound, htotal, hat, bind, Except.bind, pure, Except.pure, Answer.toPage,
      hpage]
  · have hhas : ∀ content ∈ payloads host size cells, request.store.Has content := fun content hc =>
      has_written hdistinct hfinds content (List.mem_append_left _ hc)
    have hlt : start < min (start + request.limit) cells.length := by omega
    have hread := readCells_eq hsize hreads hhas hlt (min_le_right _ _)
    simp [diffCellsPage, hfound, htotal, hat, hempty, hread, bind, Except.bind, pure, Except.pure,
      Answer.toPage, pageAt]

theorem diffCellsPage_refused {cursor : String}
    (h : ∀ n, decodeIntCursor cursor = some n → ¬ (0 < n ∧ n < cells.length)) :
    diffCellsPage host request (some cursor) = .error .malformedCursor := by
  have hstart : startOf (manifestOf host size cells summary).total (some cursor) =
    .error .malformedCursor := startOf_refused h
  simp [diffCellsPage, findArtifact_built hreads hdistinct hfinds, hstart, bind, Except.bind]

end

def serve (host : Host κ σ) (requests : ℕ → Request host.sha256) (k : ℕ) (cursor : Option String) :
    Option (Page κ String) :=
  (diffCellsPage host (requests k) cursor).toOption.bind Answer.toPage

theorem serves (hsize : 1 ≤ size) (hcells : cells.length ≤ maxSize)
    (hreads : host.Reads size cells summary)
    (hdistinct : store.Distinct (written host size cells summary))
    {requests : ℕ → Request host.sha256}
    (hfinds : ∀ k, (requests k).Finds size cells summary store)
    (hlimits : ∀ k, 1 ≤ (requests k).limit) :
    Serves encodeCursor cells (fun k => (requests k).limit) (serve host requests) := by
  intro k start hstart
  obtain ⟨page, hpage, hto⟩ :=
    diffCellsPage_eq hreads hdistinct (hfinds k) hsize (hlimits k) hcells hstart
  rw [serve, hpage, Except.toOption, Option.bind_some, hto]

/-- From the first page on, next cursor after next cursor, the pages end and together they are the
cells, each page the slice between two boundaries. A cursor that is no number inside is refused. -/
theorem pages_are_the_cells (hsize : 1 ≤ size) (hcells : cells.length ≤ maxSize)
    (hreads : host.Reads size cells summary)
    (hdistinct : store.Distinct (written host size cells summary))
    {requests : ℕ → Request host.sha256}
    (hfinds : ∀ k, (requests k).Finds size cells summary store)
    (hlimits : ∀ k, 1 ≤ (requests k).limit) :
    (∃ pages, follow (serve host requests) (cells.length + 1) 0 none = some pages ∧
      pages.flatMap Page.items = cells ∧
      ∀ k page, pages[k]? = some page → page.items =
        slice cells (boundary (fun k => (requests k).limit) cells.length k)
          (boundary (fun k => (requests k).limit) cells.length (k + 1))) ∧
    ∀ k cursor, (∀ n, decodeIntCursor cursor = some n → ¬ (0 < n ∧ n < cells.length)) →
      diffCellsPage host (requests k) (some cursor) = .error .malformedCursor := by
  have hserves := serves hsize hcells hreads hdistinct hfinds hlimits
  exact ⟨follow_all hserves hlimits, fun k cursor h =>
    diffCellsPage_refused hreads hdistinct (hfinds k) h⟩

end

/-! ## Three added cells in chunks of two -/

def areaCell (area : ℕ) : String :=
  "\x7b\"key\":\x7b\"area\":\"" ++ toString area ++ "\"\x7d,\"change\":\"added\"," ++
    "\"baseline_value\":null,\"current_value\":\"1.1\",\"abs_change\":null," ++
    "\"rel_change_pct\":null,\"weight\":null\x7d"

def areaDigests : List Digest :=
  ["03e4734243b0082f14df88f100a9a0402bb0be9a3d96cb4a5ceff5b739fc77c8",
    "013b4151bd6d911225c18040db65ebdecd0d5b583a93d643c64cd714f8d84a3d"]

def areaManifest : String :=
  "\x7b\"chunk_size\": 2, \"total\": 3, \"chunks\": [\"" ++
    "03e4734243b0082f14df88f100a9a0402bb0be9a3d96cb4a5ceff5b739fc77c8\", \"" ++
    "013b4151bd6d911225c18040db65ebdecd0d5b583a93d643c64cd714f8d84a3d\"], " ++
    "\"summary\": \x7b\"changed_cells\": 3, \"max_abs_change_pct\": null, " ++
    "\"exposure_weighted_mean_change_pct\": null, \"portfolio_exposure\": null, " ++
    "\"matched_exposure\": null\x7d\x7d"

def areaBytes (text : String) : Bytes := text.toUTF8.data.toList

/-- The three cells and their summary as they are written, and the digests of what is written. -/
def areaHost : Host ℕ Unit where
  modelDumpJson area := areaBytes (areaCell area)
  modelValidateJson line := [1, 2, 3].find? fun area => areaBytes (areaCell area) = line
  dumps _ := areaBytes areaManifest
  loads content := if content = areaBytes areaManifest then some ⟨2, 3, areaDigests, ()⟩ else none
  sha256 content :=
    if content = areaBytes (areaCell 1 ++ "\n" ++ areaCell 2 ++ "\n") then areaDigests[0]
    else if content = areaBytes (areaCell 3 ++ "\n") then areaDigests[1]
    else "1c50b478fa8157b9345342d376f9f4139fb7cab1595fe7bd2c444febddce4eeb"

def areaRequest : Request areaHost.sha256 where
  key := "area"
  jobs := [⟨8, .running, none⟩, ⟨7, .succeeded,
    some "1c50b478fa8157b9345342d376f9f4139fb7cab1595fe7bd2c444febddce4eeb"⟩]
  danglingRefs := .ok ⟨⟩
  store := (buildCellsArtifact areaHost 2 [1, 2, 3] () (.empty areaHost.sha256)).2
  limit := 1

theorem areaBytes_append (s t : String) : areaBytes (s ++ t) = areaBytes s ++ areaBytes t := by
  simp [areaBytes]

theorem areaBytes_inj {s t : String} : areaBytes s = areaBytes t ↔ s = t := by
  simp [areaBytes, ← ByteArray.ext_iff, String.toByteArray_inj]

theorem areaBytes_break : areaBytes "\n" = [10] := by decide

theorem areaCell_inj {a b : ℕ} : areaCell a = areaCell b ↔ toString a = toString b := by
  unfold areaCell
  rw [String.append_left_inj, String.append_left_inj, String.append_left_inj,
    String.append_right_inj]

theorem single_areaCell {area : ℕ} (h : Lines.Single (areaBytes (toString area))) :
    Lines.Single (areaBytes (areaCell area)) := by
  unfold areaCell
  rw [areaBytes_append, areaBytes_append, areaBytes_append, areaBytes_append]
  refine .append (.append (.append (.append ?_ h) ?_) ?_) ?_
  all_goals decide +kernel

theorem single_areaCells : ∀ area ∈ [1, 2, 3], Lines.Single (areaBytes (areaCell area)) :=
  fun _ harea => single_areaCell <|
    (by decide +kernel : ∀ area ∈ [1, 2, 3], Lines.Single (areaBytes (toString area))) _ harea

theorem single_areaManifest : Lines.Single (areaBytes areaManifest) := by
  unfold areaManifest
  rw [areaBytes_append, areaBytes_append, areaBytes_append, areaBytes_append, areaBytes_append]
  refine .append (.append (.append (.append (.append ?_ ?_) ?_) ?_) ?_) ?_
  all_goals decide +kernel

theorem ne_of_single {text s t : String} (h : Lines.Single (areaBytes text)) :
    text ≠ s ++ "\n" ++ t := by
  rintro rfl
  exact (h 10 (by simp [areaBytes_append, areaBytes_break])).1 rfl

theorem sha256_areaHost (text : String) : areaHost.sha256 (areaBytes text) =
    if text = areaCell 1 ++ "\n" ++ areaCell 2 ++ "\n" then areaDigests[0]
    else if text = areaCell 3 ++ "\n" then areaDigests[1]
    else "1c50b478fa8157b9345342d376f9f4139fb7cab1595fe7bd2c444febddce4eeb" := by
  simp only [areaHost, areaBytes_inj]

theorem sha256_firstChunk :
    areaHost.sha256 (areaBytes (areaCell 1 ++ "\n" ++ areaCell 2 ++ "\n")) = areaDigests[0] := by
  rw [sha256_areaHost, if_pos rfl]

theorem sha256_secondChunk : areaHost.sha256 (areaBytes (areaCell 3 ++ "\n")) = areaDigests[1] := by
  rw [sha256_areaHost, if_neg, if_pos rfl]
  rw [String.append_left_inj]
  exact ne_of_single (single_areaCells 3 (by decide))

theorem sha256_areaManifest : areaHost.sha256 (areaBytes areaManifest) =
    "1c50b478fa8157b9345342d376f9f4139fb7cab1595fe7bd2c444febddce4eeb" := by
  have hne (s : String) : areaManifest ≠ s ++ "\n" := by
    simpa using ne_of_single (s := s) (t := "") single_areaManifest
  rw [sha256_areaHost, if_neg (hne _), if_neg (hne _)]

theorem payloads_areaHost : payloads areaHost 2 [1, 2, 3] =
    [areaBytes (areaCell 1 ++ "\n" ++ areaCell 2 ++ "\n"), areaBytes (areaCell 3 ++ "\n")] := by
  have hchunks : chunks [1, 2, 3] 2 = [[1, 2], [3]] := by decide
  simp [payloads, hchunks, Lines.join, areaHost, areaBytes_append, areaBytes_break]

theorem areaHost_reads : areaHost.Reads 2 [1, 2, 3] () where
  cell := by simp [areaHost, areaBytes_inj, areaCell_inj]
  line := single_areaCells
  manifest := by
    have hchunks : (payloads areaHost 2 [1, 2, 3]).map areaHost.sha256 = areaDigests := by
      rw [payloads_areaHost, List.map_cons, List.map_cons, List.map_nil, sha256_firstChunk,
        sha256_secondChunk]
      rfl
    rw [manifestOf, hchunks]
    simp only [areaHost, if_true, List.length_cons, List.length_nil]

theorem areaHost_distinct :
    (BlobStore.empty areaHost.sha256).Distinct (written areaHost 2 [1, 2, 3] ()) := by
  have hdigests : ((written areaHost 2 [1, 2, 3] ()).map areaHost.sha256).Nodup := by
    rw [written, payloads_areaHost, List.map_append, List.map_cons, List.map_cons, List.map_nil,
      sha256_firstChunk, sha256_secondChunk, List.map_cons, List.map_nil]
    rw [show areaHost.dumps _ = areaBytes areaManifest from rfl, sha256_areaManifest]
    decide
  rintro a (ha | ⟨d, hd⟩) b (hb | ⟨d', hd'⟩)
  · exact List.inj_on_of_nodup_map hdigests ha hb
  · cases hd'
  · cases hd
  · cases hd

theorem areaRequest_finds :
    areaRequest.Finds 2 [1, 2, 3] () (BlobStore.empty areaHost.sha256) where
  latest := by
    have hdigest : (buildCellsArtifact areaHost 2 [1, 2, 3] () (.empty areaHost.sha256)).1 =
      "1c50b478fa8157b9345342d376f9f4139fb7cab1595fe7bd2c444febddce4eeb" := sha256_areaManifest
    rw [hdigest]
    exact ⟨[⟨8, .running, none⟩], _, [], rfl, by decide, rfl, rfl⟩
  kept := by
    dsimp only [areaRequest]
    exact BlobStore.Extends.refl

theorem three_cells_paged :
    (∃ pages, follow (serve areaHost fun _ => areaRequest) 4 0 none = some pages ∧
      pages.flatMap Page.items = [1, 2, 3] ∧
      ∀ k page, pages[k]? = some page →
        page.items = slice [1, 2, 3] (boundary (fun _ => 1) 3 k) (boundary (fun _ => 1) 3 (k + 1))) ∧
    ∀ (_ : ℕ) cursor, (∀ n, decodeIntCursor cursor = some n → ¬ (0 < n ∧ n < 3)) →
      diffCellsPage areaHost areaRequest (some cursor) = .error .malformedCursor :=
  pages_are_the_cells (by decide) (by decide) areaHost_reads areaHost_distinct
    (fun _ => areaRequest_finds) fun _ => by decide

end GiPricing.RateTables.Cells
