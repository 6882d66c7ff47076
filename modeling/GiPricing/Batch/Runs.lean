import GiPricing.Batch.Frames
import GiPricing.Transition.Run

/-! # Batch jobs and their scratch parts

Jobs score the chunks of a table for each of their refs. A chunk that is in scratch is read, not
scored again, and a run deletes its parts when it ends or aborts. Jobs run in any interleaving, and
each may stop at any step.
-/

namespace GiPricing.Batch

open Failure Transition

/-! ## The model -/

/-- The parameters of a `score.batch` job. `aborts` compares the failure rate of a count of errors
and of rows with the effective threshold. -/
structure Parameters where
  datasetVersionId : ℕ
  ratingVersionRefs : List ArtifactRef
  chunkRows : Option ℕ
  tableName : Option String
  aborts : ℕ → ℕ → Bool

def defaultChunkRows : ℕ := 100000

/-- `int(parameters.get("chunk_rows") or _DEFAULT_CHUNK_ROWS)`. -/
def Parameters.chunkSize (p : Parameters) : ℕ := match p.chunkRows with
  | none | some 0 => defaultChunkRows
  | some n => n

/-- What a bundle makes of a row, and the tables of each Dataset Version. -/
structure Site where
  scorer : Scorer
  tables : ℕ → List (String × List Row)

def Parameters.table (p : Parameters) (site : Site) : Option (List Row) :=
  ((site.tables p.datasetVersionId).find? fun t => p.tableName.all (t.1 = ·)).map Prod.snd

/-- `score-batch/{content_hash}/{dataset_version_id}/{chunk_index}`. -/
structure ScratchKey where
  contentHash : String
  datasetVersionId : ℕ
  chunkIndex : ℕ
  deriving DecidableEq

structure Origin where
  table : List Row
  chunkRows : ℕ
  ref : ArtifactRef

structure Part where
  frame : List BatchRow
  origin : Origin

inductive Stage
  | reading (chunk : ℕ)
  | writing (chunk : ℕ) (frame : List BatchRow)
  | aborting (chunk last : ℕ)
  | assembling (chunk : ℕ) (parts : List BatchRow)
  | deleting (chunk : ℕ) (parts : List BatchRow)

/-- `_score_one_ref` under way, with the hash of the bundle it loaded and, for the record, the bundles
there were then. -/
structure RefRun where
  ref : ArtifactRef
  contentHash : String
  bundles : ArtifactRef → Option String
  stage : Stage
  stats : RefStats

structure RefResult where
  ref : ArtifactRef
  bundles : ArtifactRef → Option String
  output : Option (List BatchRow)
  stats : RefStats

/-- A handler under way: the refs to come, the one it is at, and the results so far. -/
structure Handler where
  parameters : Parameters
  table : List Row
  todo : List ArtifactRef
  current : Option RefRun
  results : List RefResult

inductive BatchJob
  | absent
  | running (handler : Handler)
  | failed
  | succeeded (parameters : Parameters) (results : List RefResult)

/-- The content hash of each compiled version, the parts and the jobs. -/
structure World where
  bundles : ArtifactRef → Option String
  scratch : ScratchKey → Option Part
  jobs : ℕ → BatchJob

def World.init : World := ⟨fun _ => none, fun _ => none, fun _ => .absent⟩

/-- A version is compiled, once or again, or a job goes on: `resolve` loads the bundle of its next
ref, `advance` is its next operation, `stop` a cancel, a crash or a failure. -/
inductive BatchEvent
  | compile (ref : ArtifactRef) (contentHash : String)
  | submit (job : ℕ) (parameters : Parameters)
  | resolve (job : ℕ)
  | advance (job : ℕ)
  | stop (job : ℕ)

namespace Handler

def scratchKey (handler : Handler) (run : RefRun) (chunk : ℕ) : ScratchKey :=
  ⟨run.contentHash, handler.parameters.datasetVersionId, chunk⟩

def frame (handler : Handler) (run : RefRun) : List Row := datasetFrame handler.table run.ref

def chunks (handler : Handler) (run : RefRun) : ℕ :=
  nChunks (handler.frame run).length handler.parameters.chunkSize

def origin (handler : Handler) (run : RefRun) : Origin :=
  ⟨handler.table, handler.parameters.chunkSize, run.ref⟩

def at_ (handler : Handler) (run : RefRun) (stage : Stage) : BatchJob :=
  .running { handler with current := some { run with stage := stage } }

/-- A chunk is counted, and the run goes on or aborts. -/
def observe (handler : Handler) (run : RefRun) (chunk : ℕ) (frame : List BatchRow) : BatchJob :=
  let stats := run.stats.observe frame
  handler.at_ { run with stats := stats } <|
    if handler.parameters.aborts (stats.outcomeCounts "error") stats.rowCount then .aborting 0 chunk
    else .reading (chunk + 1)

/-- The result of a ref. Without a part there is no output. -/
def close (handler : Handler) (run : RefRun) (parts : List BatchRow) : BatchJob :=
  let output := if handler.chunks run = 0 then none else some parts
  .running { handler with
    current := none
    results := handler.results ++ [⟨run.ref, run.bundles, output, run.stats⟩] }

/-- The next operation of `_score_one_ref`. -/
def advance (site : Site) (scratch : ScratchKey → Option Part) (handler : Handler) (run : RefRun) :
    (ScratchKey → Option Part) × BatchJob := match run.stage with
  | .reading chunk =>
    if chunk < handler.chunks run then
      match scratch (handler.scratchKey run chunk) with
      | some part => (scratch, handler.observe run chunk part.frame)
      | none =>
        let rows := chunkOf (handler.frame run) handler.parameters.chunkSize chunk
        match scoreBatch site.scorer run.contentHash rows handler.parameters.chunkSize with
        | .ok scored => (scratch, handler.at_ run (.writing chunk scored))
        | .error _ => (scratch, .failed)
    else (scratch, handler.at_ run (.assembling 0 []))
  | .writing chunk scored =>
    (Function.update scratch (handler.scratchKey run chunk) (some ⟨scored, handler.origin run⟩),
      handler.observe run chunk scored)
  | .aborting chunk last =>
    (Function.update scratch (handler.scratchKey run chunk) none,
      if chunk < last then handler.at_ run (.aborting (chunk + 1) last) else .failed)
  | .assembling chunk parts =>
    if chunk < handler.chunks run then
      match scratch (handler.scratchKey run chunk) with
      | some part => (scratch, handler.at_ run (.assembling (chunk + 1) (parts ++ part.frame)))
      | none => (scratch, .failed)
    else (scratch, handler.at_ run (.deleting 0 parts))
  | .deleting chunk parts =>
    if chunk < handler.chunks run then
      (Function.update scratch (handler.scratchKey run chunk) none,
        handler.at_ run (.deleting (chunk + 1) parts))
    else (scratch, handler.close run parts)

end Handler

def World.setJob (w : World) (job : ℕ) (j : BatchJob) : World :=
  { w with jobs := Function.update w.jobs job j }

def step (site : Site) (w : World) : BatchEvent → Option World
  | .compile ref contentHash =>
    some { w with bundles := Function.update w.bundles ref (some contentHash) }
  | .submit job parameters => match w.jobs job with
    | .absent => some <| w.setJob job <| match parameters.table site with
      | some table => .running ⟨parameters, table, parameters.ratingVersionRefs, none, []⟩
      | none => .failed
    | _ => none
  | .resolve job => match w.jobs job with
    | .running ⟨parameters, table, ref :: todo, none, results⟩ =>
      some <| w.setJob job <| match w.bundles ref with
        | some contentHash =>
          .running ⟨parameters, table, todo,
            some ⟨ref, contentHash, w.bundles, .reading 0, .empty⟩, results⟩
        | none => .failed
    | _ => none
  | .advance job => match w.jobs job with
    | .running handler => match handler.current with
      | some run =>
        let next := handler.advance site w.scratch run
        some ({ w with scratch := next.1 }.setJob job next.2)
      | none =>
        if handler.todo = [] then some (w.setJob job (.succeeded handler.parameters handler.results))
        else none
    | _ => none
  | .stop job => match w.jobs job with
    | .running _ => some (w.setJob job .failed)
    | _ => none

/-! ## What a run knows -/

variable {site : Site} {w w' : World} {e : BatchEvent} {handler : Handler} {run : RefRun}
  {part : Part} {key : ScratchKey} {chunk : ℕ}

theorem chunkSize_pos (p : Parameters) : 0 < p.chunkSize := by
  rw [Parameters.chunkSize]
  cases p.chunkRows with
  | none => decide
  | some n =>
    cases n with
    | zero => decide
    | succ n => exact Nat.succ_pos n

/-- A part is the chunk of its key, scored as the run that wrote it has it. -/
def Part.Sound (site : Site) (key : ScratchKey) (part : Part) : Prop :=
  scoreBatch site.scorer key.contentHash
    (chunkOf (datasetFrame part.origin.table part.origin.ref) part.origin.chunkRows key.chunkIndex)
    part.origin.chunkRows = .ok part.frame

/-- The rows of the first chunks, scored. -/
def Scored (site : Site) (handler : Handler) (run : RefRun) (chunk : ℕ) (out : List BatchRow) : Prop :=
  ((handler.frame run).take (chunk * handler.parameters.chunkSize)).mapM
    (scoreBatchRow site.scorer run.contentHash) = .ok out

/-- The whole frame, scored. -/
def ScoredWhole (site : Site) (handler : Handler) (run : RefRun) (out : List BatchRow) : Prop :=
  (handler.frame run).mapM (scoreBatchRow site.scorer run.contentHash) = .ok out

/-- What a run knows at each stage. -/
def RefRun.Sound (site : Site) (handler : Handler) (run : RefRun) : Prop := match run.stage with
  | .reading chunk => ∃ out, Scored site handler run chunk out ∧ run.stats = RefStats.empty.observe out
  | .writing chunk scored =>
    (∃ out, Scored site handler run chunk out ∧ run.stats = RefStats.empty.observe out) ∧
      scoreBatch site.scorer run.contentHash
        (chunkOf (handler.frame run) handler.parameters.chunkSize chunk)
        handler.parameters.chunkSize = .ok scored
  | .aborting _ _ => True
  | .assembling chunk parts => Scored site handler run chunk parts ∧
      ∃ out, ScoredWhole site handler run out ∧ run.stats = RefStats.empty.observe out
  | .deleting _ parts => ScoredWhole site handler run parts ∧
      run.stats = RefStats.empty.observe parts

/-- The result is the frame of the ref's own bundle over the table with the ref stamped, row for row,
with its counts. -/
structure RefResult.Faithful (site : Site) (parameters : Parameters) (table : List Row)
    (result : RefResult) : Prop where
  whole : ∃ contentHash frame, result.bundles result.ref = some contentHash ∧
    result.output = some frame ∧
    scoreBatch site.scorer contentHash (datasetFrame table result.ref) parameters.chunkSize =
      .ok frame ∧
    result.stats = RefStats.empty.observe frame ∧
    List.Forall₂ (fun row out => scoreBatchRow site.scorer contentHash
        (row.insert refColumn (.text (Attribution.refText result.ref))) = .ok out ∧
      out.ratingVersionRef = .text (Attribution.refText result.ref)) table frame

/-- A handler's own table has a row, its results are faithful, and none of its refs is lost. -/
structure Handler.Sound (site : Site) (handler : Handler) : Prop where
  table : handler.parameters.table site = some handler.table
  nonempty : handler.table ≠ []
  refs : handler.results.map RefResult.ref ++ handler.current.toList.map RefRun.ref ++ handler.todo =
    handler.parameters.ratingVersionRefs
  results : ∀ result ∈ handler.results, result.Faithful site handler.parameters handler.table
  current : ∀ run, handler.current = some run →
    run.bundles run.ref = some run.contentHash ∧ run.Sound site handler

/-- A job that has succeeded stores a faithful result for each of its refs. -/
def BatchJob.Sound (site : Site) : BatchJob → Prop
  | .absent | .failed => True
  | .running handler => handler.Sound site
  | .succeeded parameters results => ∃ table, parameters.table site = some table ∧
      results.map RefResult.ref = parameters.ratingVersionRefs ∧
      ∀ result ∈ results, result.Faithful site parameters table

structure World.Sound (site : Site) (w : World) : Prop where
  scratch : ∀ key part, w.scratch key = some part → part.Sound site key
  jobs : ∀ job, (w.jobs job).Sound site

def Stage.reads (chunks : ℕ) : Stage → Option ℕ
  | .reading chunk | .assembling chunk _ => if chunk < chunks then some chunk else none
  | _ => none

/-- A part that a run reads was written by a run of the same table, chunk size and ref, and the
table of a submitted job has a row. -/
structure OwnParts (site : Site) (w : World) (e : BatchEvent) (_ : World) : Prop where
  submit : ∀ job parameters, e = .submit job parameters → parameters.table site ≠ some []
  read : ∀ job handler run chunk part, e = .advance job → w.jobs job = .running handler →
    handler.current = some run → run.stage.reads (handler.chunks run) = some chunk →
    w.scratch (handler.scratchKey run chunk) = some part → part.origin = handler.origin run

/-- Every job that has succeeded has stored, for each of its refs in order, the frame of its own
table. -/
def StoresOwn (site : Site) (_ : World) (_ : BatchEvent) (w : World) : Prop :=
  ∀ job parameters results, w.jobs job = .succeeded parameters results →
    ∃ table, parameters.table site = some table ∧
      results.map RefResult.ref = parameters.ratingVersionRefs ∧
      ∀ result ∈ results, result.Faithful site parameters table

/-! ## One operation -/

theorem Handler.Sound.at_ {run' : RefRun} (h : handler.Sound site) (hcurrent : handler.current = some run)
    (hsame : run' = { run with stage := run'.stage, stats := run'.stats })
    (hrun : run'.Sound site handler) :
    (BatchJob.running { handler with current := some run' }).Sound site where
  table := h.table
  nonempty := h.nonempty
  refs := by
    have hrefs := h.refs
    rw [hcurrent] at hrefs
    rw [← hrefs, Option.toList_some, Option.toList_some, List.map_singleton, List.map_singleton, hsame]
  results := h.results
  current := by
    rintro _ ⟨⟩
    refine ⟨?_, hrun⟩
    rw [hsame]
    exact (h.current run hcurrent).1

/-- The chunk that is counted is the next one of the run. -/
theorem Handler.Sound.observe {out scored : List BatchRow} (h : handler.Sound site)
    (hcurrent : handler.current = some run) (hout : Scored site handler run chunk out)
    (hstats : run.stats = RefStats.empty.observe out)
    (hscored : scoreBatch site.scorer run.contentHash
      (chunkOf (handler.frame run) handler.parameters.chunkSize chunk)
      handler.parameters.chunkSize = .ok scored) :
    (handler.observe run chunk scored).Sound site := by
  refine h.at_ hcurrent rfl ?_
  split_ifs
  · trivial
  · refine ⟨out ++ scored, scored_take_succ hout hscored (chunkSize_pos _), ?_⟩
    rw [RefStats.observe_append, ← hstats]

theorem chunks_ne_zero (h : handler.Sound site) (run : RefRun) : handler.chunks run ≠ 0 := by
  have hlen : (handler.frame run).length ≠ 0 := by
    rw [Handler.frame, datasetFrame, List.length_map]
    exact fun h0 => h.nonempty (List.length_eq_zero_iff.mp h0)
  rw [Handler.chunks, nChunks, if_neg hlen]
  exact Nat.one_le_iff_ne_zero.mp (le_max_left _ _)

theorem Handler.Sound.close {parts : List BatchRow} (h : handler.Sound site)
    (hcurrent : handler.current = some run) (hparts : ScoredWhole site handler run parts)
    (hstats : run.stats = RefStats.empty.observe parts) :
    (handler.close run parts).Sound site where
  table := h.table
  nonempty := h.nonempty
  refs := by
    have hrefs := h.refs
    rw [hcurrent] at hrefs
    rw [← hrefs, List.map_append]
    simp
  results := by
    intro result hresult
    rcases List.mem_append.mp hresult with hresult | hresult
    · exact h.results result hresult
    · rw [List.mem_singleton.mp hresult]
      exact ⟨run.contentHash, parts, (h.current run hcurrent).1, if_neg (chunks_ne_zero h run),
        (scoreBatch_eq (chunkSize_pos _)).trans hparts, hstats, scored_rows hparts⟩
  current := by rintro _ ⟨⟩

theorem Part.Sound.own {handler : Handler} {run : RefRun}
    (h : part.Sound site (handler.scratchKey run chunk)) (horigin : part.origin = handler.origin run) :
    scoreBatch site.scorer run.contentHash
      (chunkOf (handler.frame run) handler.parameters.chunkSize chunk)
      handler.parameters.chunkSize = .ok part.frame := by
  rw [Part.Sound, horigin] at h
  exact h

theorem scratch_delete {scratch : ScratchKey → Option Part}
    (h : ∀ key part, scratch key = some part → part.Sound site key) (k : ScratchKey) :
    ∀ key part, Function.update scratch k none key = some part → part.Sound site key := by
  intro key part hpart
  rcases eq_or_ne key k with rfl | hne
  · rw [Function.update_self] at hpart
    cases hpart
  · rw [Function.update_of_ne hne] at hpart
    exact h key part hpart

theorem scratch_write {scratch : ScratchKey → Option Part} {k : ScratchKey} {new : Part}
    (h : ∀ key part, scratch key = some part → part.Sound site key) (hnew : new.Sound site k) :
    ∀ key part, Function.update scratch k (some new) key = some part → part.Sound site key := by
  intro key part hpart
  rcases eq_or_ne key k with rfl | hne
  · rw [Function.update_self] at hpart
    cases hpart
    exact hnew
  · rw [Function.update_of_ne hne] at hpart
    exact h key part hpart

/-- An operation of a run keeps the parts and the run sound, where a part it reads is its own. -/
theorem advance_sound {scratch : ScratchKey → Option Part}
    (hscratch : ∀ key part, scratch key = some part → part.Sound site key)
    (h : handler.Sound site) (hcurrent : handler.current = some run)
    (hown : ∀ chunk part, run.stage.reads (handler.chunks run) = some chunk →
      scratch (handler.scratchKey run chunk) = some part → part.origin = handler.origin run) :
    (∀ key part, (handler.advance site scratch run).1 key = some part → part.Sound site key) ∧
      (handler.advance site scratch run).2.Sound site := by
  have hrun := (h.current run hcurrent).2
  rw [Handler.advance]
  rw [RefRun.Sound] at hrun
  cases hstage : run.stage with
  | reading chunk =>
    rw [hstage] at hrun hown
    obtain ⟨out, hout, hstats⟩ := hrun
    simp only
    split_ifs with hlt
    · cases hpart : scratch (handler.scratchKey run chunk) with
      | some part =>
        have horigin := hown chunk part (if_pos hlt) hpart
        exact ⟨hscratch, h.observe hcurrent hout hstats ((hscratch _ _ hpart).own horigin)⟩
      | none =>
        simp only
        cases hscored : scoreBatch site.scorer run.contentHash
            (chunkOf (handler.frame run) handler.parameters.chunkSize chunk)
            handler.parameters.chunkSize with
        | ok scored =>
          exact ⟨hscratch, h.at_ hcurrent rfl ⟨⟨out, hout, hstats⟩, hscored⟩⟩
        | error _ => exact ⟨hscratch, trivial⟩
    · refine ⟨hscratch, h.at_ hcurrent rfl ⟨?_, out, ?_, hstats⟩⟩
      · rw [Scored, Nat.zero_mul]
        rfl
      · exact scored_whole hout (chunkSize_pos _) (not_lt.mp hlt)
  | writing chunk scored =>
    rw [hstage] at hrun
    obtain ⟨⟨out, hout, hstats⟩, hscored⟩ := hrun
    exact ⟨scratch_write hscratch hscored, h.observe hcurrent hout hstats hscored⟩
  | aborting chunk last =>
    refine ⟨scratch_delete hscratch _, ?_⟩
    simp only
    split_ifs
    · exact h.at_ hcurrent rfl trivial
    · trivial
  | assembling chunk parts =>
    rw [hstage] at hrun hown
    obtain ⟨hparts, out, hwhole, hstats⟩ := hrun
    simp only
    split_ifs with hlt
    · cases hpart : scratch (handler.scratchKey run chunk) with
      | some part =>
        have horigin := hown chunk part (if_pos hlt) hpart
        refine ⟨hscratch, h.at_ hcurrent rfl ⟨?_, out, hwhole, hstats⟩⟩
        exact scored_take_succ hparts ((hscratch _ _ hpart).own horigin) (chunkSize_pos _)
      | none => exact ⟨hscratch, trivial⟩
    · have hall := scored_whole hparts (chunkSize_pos _) (not_lt.mp hlt)
      obtain rfl : parts = out := Except.ok.inj (hall.symm.trans hwhole)
      exact ⟨hscratch, h.at_ hcurrent rfl ⟨hwhole, hstats⟩⟩
  | deleting chunk parts =>
    rw [hstage] at hrun
    obtain ⟨hwhole, hstats⟩ := hrun
    simp only
    split_ifs
    · exact ⟨scratch_delete hscratch _, h.at_ hcurrent rfl ⟨hwhole, hstats⟩⟩
    · exact ⟨hscratch, h.close hcurrent hwhole hstats⟩

/-! ## Every event -/

theorem World.setJob_jobs (w : World) (job : ℕ) (j : BatchJob) :
    (w.setJob job j).jobs = Function.update w.jobs job j := rfl

theorem World.Sound.setJob {job : ℕ} {j : BatchJob} (h : w.Sound site) (hj : j.Sound site) :
    (w.setJob job j).Sound site where
  scratch := h.scratch
  jobs k := by
    rcases eq_or_ne k job with rfl | hne
    · rw [World.setJob_jobs, Function.update_self]
      exact hj
    · rw [World.setJob_jobs, Function.update_of_ne hne]
      exact h.jobs k

theorem step_sound (h : w.Sound site) (hstep : step site w e = some w') (hown : OwnParts site w e w') :
    w'.Sound site := by
  cases e with
  | submit job parameters =>
    simp only [step] at hstep
    split at hstep
    · cases hstep
      refine h.setJob ?_
      cases htable : parameters.table site with
      | none => trivial
      | some table =>
        refine ⟨htable, ?_, rfl, by rintro result ⟨⟩, by rintro run ⟨⟩⟩
        rintro rfl
        exact hown.submit job parameters rfl htable
    · cases hstep
  | compile ref contentHash =>
    cases hstep
    exact ⟨h.scratch, h.jobs⟩
  | resolve job =>
    simp only [step] at hstep
    split at hstep
    · rename_i parameters table ref todo results hjob
      cases hstep
      have hjobs := h.jobs job
      rw [hjob] at hjobs
      refine h.setJob ?_
      cases hbundle : w.bundles ref with
      | none => trivial
      | some contentHash =>
        refine ⟨hjobs.table, hjobs.nonempty, ?_, hjobs.results, ?_⟩
        · rw [← hjobs.refs]
          simp
        · rintro run ⟨⟩
          refine ⟨hbundle, [], ?_, rfl⟩
          rw [Scored, Nat.zero_mul]
          rfl
    · cases hstep
  | advance job =>
    simp only [step] at hstep
    split at hstep
    · rename_i handler hjob
      have hjobs := h.jobs job
      rw [hjob] at hjobs
      split at hstep
      · rename_i run hcurrent
        cases hstep
        obtain ⟨hscratch, hnext⟩ := advance_sound h.scratch hjobs hcurrent
          fun chunk part => hown.read job handler run chunk part rfl hjob hcurrent
        have hw : World.Sound site { w with scratch := (handler.advance site w.scratch run).1 } :=
          ⟨hscratch, h.jobs⟩
        exact hw.setJob hnext
      · rename_i hcurrent
        split_ifs at hstep with htodo
        cases hstep
        refine h.setJob ⟨handler.table, hjobs.table, ?_, hjobs.results⟩
        have hrefs := hjobs.refs
        rw [hcurrent, htodo] at hrefs
        simpa using hrefs
    · cases hstep
  | stop job =>
    simp only [step] at hstep
    split at hstep
    · cases hstep
      exact h.setJob trivial
    · cases hstep

theorem World.Sound.storesOwn (h : w'.Sound site) : StoresOwn site w e w' := by
  intro job parameters results hjob
  have hjobs := h.jobs job
  rw [hjob] at hjobs
  exact hjobs

/-- Over every history of batch jobs, every job that succeeds has stored the frame of its own table
for each of its refs, where every part that a run reads was written by a run of the same table,
chunk size and ref, and no table is empty. -/
theorem batches_store_own (site : Site) (events : List BatchEvent)
    (hown : Always (step site) (OwnParts site) .init events) :
    Always (step site) (StoresOwn site) .init events := by
  have hstep : ∀ w e w', w.Sound site → step site w e = some w' → OwnParts site w e w' →
      w'.Sound site ∧ StoresOwn site w e w' := by
    intro w e w' h hstep hstepOwn
    have h' := step_sound h hstep hstepOwn
    exact ⟨h', h'.storesOwn⟩
  refine hown.imp hstep ⟨?_, fun _ => trivial⟩
  rintro key part ⟨⟩

/-- One bundle, which quotes the text of a row's `id`, and one Dataset Version of two tables. -/
def idSite : Site where
  scorer := ⟨fun _ => "", fun _ row => .scored "quoted" "bundle" none
    (match row.get? "id" with | some (.text id) => some id | _ => none) []⟩
  tables _ := [("a", [Dict.empty.insert "id" (.text "1")]), ("b", [Dict.empty.insert "id" (.text "2")])]

def tableJob (name : String) : Parameters :=
  ⟨7, [⟨"rating_version", "motor", 1⟩], none, some name, fun _ _ => false⟩

/-- A version is compiled. A job scores the one chunk of its table, and stops. -/
def interrupted : List BatchEvent :=
  [.compile ⟨"rating_version", "motor", 1⟩ "bundle", .submit 1 (tableJob "a"), .resolve 1, .advance 1,
    .advance 1, .stop 1]

/-- The job is submitted again, takes the chunk from scratch and runs to its end. -/
def resumed : List BatchEvent :=
  interrupted ++ [.submit 2 (tableJob "a"), .resolve 2, .advance 2, .advance 2, .advance 2, .advance 2,
    .advance 2, .advance 2, .advance 2]

/-- The second job takes the part of the first, of the same table, chunk size and ref. -/
theorem interrupted_storesOwn : (∃ w result, Transition.run (step idSite) .init resumed = some w ∧
      w.jobs 2 = .succeeded (tableJob "a") [result]) ∧
    Always (step idSite) (StoresOwn idSite) .init resumed := by
  refine ⟨⟨_, _, rfl, rfl⟩, batches_store_own idSite resumed ?_⟩
  have hnext : ∀ {w e w' es}, step idSite w e = some w' → OwnParts idSite w e w' →
      Always (step idSite) (OwnParts idSite) w' es →
        Always (step idSite) (OwnParts idSite) w (e :: es) := by
    intro w e w' es he hown hes w'' he'
    obtain rfl := Option.some.inj (he.symm.trans he')
    exact ⟨hown, hes⟩
  have hquiet : ∀ {w w' : World} {e}, (∀ job parameters, e ≠ .submit job parameters) →
      (∀ job, e ≠ .advance job) → OwnParts idSite w e w' := fun hsubmit hadvance =>
    ⟨fun job parameters he => absurd he (hsubmit job parameters),
      fun job _ _ _ _ he => absurd he (hadvance job)⟩
  have hsubmit : ∀ {w w' : World} {job}, OwnParts idSite w (.submit job (tableJob "a")) w' :=
    ⟨by rintro _ _ ⟨⟩ ⟨⟩, nofun⟩
  refine hnext rfl (hquiet nofun nofun) ?_
  refine hnext rfl hsubmit (hnext rfl (hquiet nofun nofun) ?_)
  refine hnext rfl ⟨nofun, by rintro _ _ _ _ _ ⟨⟩ ⟨⟩ ⟨⟩ ⟨⟩ ⟨⟩⟩ ?_
  refine hnext rfl ⟨nofun, by rintro _ _ _ _ _ ⟨⟩ ⟨⟩ ⟨⟩ ⟨⟩⟩ ?_
  refine hnext rfl (hquiet nofun nofun) (hnext rfl hsubmit (hnext rfl (hquiet nofun nofun) ?_))
  -- The look-up and the assembly read the part.
  refine hnext rfl ⟨nofun, by rintro _ _ _ _ _ ⟨⟩ ⟨⟩ ⟨⟩ ⟨⟩ ⟨⟩; rfl⟩ ?_
  refine hnext rfl ⟨nofun, by rintro _ _ _ _ _ ⟨⟩ ⟨⟩ ⟨⟩ ⟨⟩⟩ ?_
  refine hnext rfl ⟨nofun, by rintro _ _ _ _ _ ⟨⟩ ⟨⟩ ⟨⟩ ⟨⟩ ⟨⟩; rfl⟩ ?_
  refine hnext rfl ⟨nofun, by rintro _ _ _ _ _ ⟨⟩ ⟨⟩ ⟨⟩ ⟨⟩⟩ ?_
  refine hnext rfl ⟨nofun, by rintro _ _ _ _ _ ⟨⟩ ⟨⟩ ⟨⟩ ⟨⟩⟩ ?_
  refine hnext rfl ⟨nofun, by rintro _ _ _ _ _ ⟨⟩ ⟨⟩ ⟨⟩ ⟨⟩⟩ ?_
  exact hnext rfl ⟨nofun, by rintro _ _ _ _ _ ⟨⟩ ⟨⟩ ⟨⟩⟩ trivial

/-- A job over another table reads the part of the first one. -/
theorem otherTable_stored : ¬ ∀ site events, Always (step site) (StoresOwn site) .init events := by
  intro h
  have hlast := (h idSite (interrupted ++ [.submit 2 (tableJob "b"), .resolve 2, .advance 2,
    .advance 2, .advance 2, .advance 2, .advance 2, .advance 2] ++ [.advance 2])).last rfl rfl
  obtain ⟨table, htable, -, hresults⟩ := hlast 2 (tableJob "b") _ rfl
  cases htable
  obtain ⟨⟨contentHash, frame, hbundle, houtput, hframe, -⟩⟩ := hresults _ List.mem_cons_self
  cases hbundle
  cases houtput
  exact absurd hframe (by decide)

end GiPricing.Batch
