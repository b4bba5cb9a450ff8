import IncidentPipeline.Review.States
import IncidentPipeline.Worker.Main

/-!
# What a transaction changes

The pipeline without its statements. A registration and a pass of a worker are each one
change of the tables: what they leave behind when they commit, whatever the web, the
model and the other workers did meanwhile. `PipelineInvariant` holds of the empty
database and is kept by every change.
-/

namespace IncidentPipeline

open Python Tables Transactions

/-! ### Jobs -/

@[simp] theorem Job.claimed_id (j : Job) (now : Time) : (j.claimed now).id = j.id := rfl

/-- The status that a failure leads to. -/
def failedStatus (maxAttempts attempts : Nat) (e : Exc) : JobStatus :=
  if e.cls.isPermanentJobError then .deadLetter else retryStatus attempts maxAttempts

theorem failedStatus_cases (maxAttempts attempts : Nat) (e : Exc) :
    failedStatus maxAttempts attempts e = .deadLetter ∨
      (failedStatus maxAttempts attempts e = .queued ∧ attempts < maxAttempts) := by
  unfold failedStatus retryStatus
  split
  · exact .inl rfl
  · split
    · exact .inl rfl
    · next more => exact .inr ⟨rfl, by omega⟩

/-- The row version of a claimed job whose stage ended in `result`. -/
def Job.ended (maxAttempts : Nat) (now : Time) (j : Job) : Except Exc Unit → Job
  | .ok () => j.succeed now
  | .error e => j.fail (failedStatus maxAttempts j.attempts e) e.message

/-- What holds of a committed job. -/
structure Job.Settled (maxAttempts : Nat) (j : Job) : Prop where
  idle : j.status ≠ .running
  waiting : j.status = .queued → j.attempts < maxAttempts
  bounded : j.attempts ≤ maxAttempts
  succeeded : j.succeededAt.isSome = true ↔ j.status = .succeeded
  document : j.kind = .extract ↔ j.documentId.isSome = true

theorem newJob_settled {maxAttempts : Nat} (positive : 1 ≤ maxAttempts) {jobId sourceId : Uuid}
    {kind : JobKind} {documentId : Option Uuid} {now : Time}
    (document : kind = .extract ↔ documentId.isSome = true) :
    (newJob jobId sourceId kind documentId now).Settled maxAttempts where
  idle := by simp [newJob]
  waiting _ := positive
  bounded := Nat.zero_le _
  succeeded := by simp [newJob]
  document := document

/-- A claimed job that has ended is settled again. -/
theorem Job.Settled.ended {maxAttempts : Nat} {j : Job} (h : j.Settled maxAttempts)
    (queued : j.status = .queued) (claimedAt now : Time) (result : Except Exc Unit) :
    ((j.claimed claimedAt).ended maxAttempts now result).Settled maxAttempts := by
  have started : j.attempts < maxAttempts := h.waiting queued
  have unfinished : j.succeededAt.isSome = true ↔ JobStatus.queued = .succeeded :=
    queued ▸ h.succeeded
  have bounded : j.attempts + 1 ≤ maxAttempts := by omega
  cases result with
  | ok u =>
      refine ⟨?_, ?_, bounded, ?_, h.document⟩ <;> simp [Job.ended, Job.succeed]
  | error e =>
      have status : ((j.claimed claimedAt).ended maxAttempts now (.error e)).status =
        failedStatus maxAttempts (j.attempts + 1) e := rfl
      have failed := failedStatus_cases maxAttempts (j.attempts + 1) e
      refine ⟨?_, ?_, bounded, ?_, h.document⟩
      · rw [status]
        rcases failed with dead | ⟨again, _⟩ <;> simp [*]
      · rw [status]
        obtain dead | ⟨again, more⟩ := failed
        · simp [dead]
        · exact fun _ => more
      · rw [status]
        refine unfinished.trans (iff_of_false (by simp) ?_)
        rcases failed with dead | ⟨again, _⟩ <;> simp [*]

@[simp] theorem Job.ended_id (maxAttempts : Nat) (now : Time) (j : Job)
    (result : Except Exc Unit) : (j.ended maxAttempts now result).id = j.id := by
  cases result <;> rfl

@[simp] theorem Job.ended_sourceId (maxAttempts : Nat) (now : Time) (j : Job)
    (result : Except Exc Unit) : (j.ended maxAttempts now result).sourceId = j.sourceId := by
  cases result <;> rfl

@[simp] theorem Job.ended_kind (maxAttempts : Nat) (now : Time) (j : Job)
    (result : Except Exc Unit) : (j.ended maxAttempts now result).kind = j.kind := by
  cases result <;> rfl

@[simp] theorem Job.ended_documentId (maxAttempts : Nat) (now : Time) (j : Job)
    (result : Except Exc Unit) : (j.ended maxAttempts now result).documentId = j.documentId := by
  cases result <;> rfl

theorem ended_succeeded_iff (maxAttempts : Nat) (now : Time) (j : Job)
    (result : Except Exc Unit) :
    (j.ended maxAttempts now result).status = .succeeded ↔ result.toBool = true := by
  cases result with
  | ok u => exact iff_of_true rfl rfl
  | error e =>
      refine iff_of_false ?_ (by simp [Except.toBool])
      show failedStatus maxAttempts j.attempts e ≠ .succeeded
      rcases failedStatus_cases maxAttempts j.attempts e with dead | ⟨again, _⟩ <;> simp [*]

/-! ### Changes -/

/-- The document is there. -/
def HasDocument (d : Database) (id : Uuid) : Prop := ∃ x ∈ d.documents, x.id = id

/-- The columns of a review row that are fixed at its creation. -/
def FieldReview.origin (r : FieldReview) : Uuid × Uuid × String × Json × Confidence :=
  (r.id, r.extractionId, r.field, r.modelValue, r.confidence)

/-- What a review row says about its extraction. -/
def FieldReview.extracted (r : FieldReview) : String × Json × Confidence :=
  (r.field, r.modelValue, r.confidence)

/-- The review rows that an extraction asks for. -/
def Extraction.expected (x : Extraction) : List (String × Json × Confidence) :=
  match x.status with
  | .failed => []
  | .complete => recordFields.map fun field =>
      (field, memberOf (x.record.getD .null) field,
        numberOf (memberOf (x.perFieldConfidence.getD .null) field))

/-- The extraction has a value and a score for every field of the record; the score is null
if it is NaN. -/
def Extraction.Filled (x : Extraction) : Prop :=
  ∃ record confidence, x.record = some record ∧ x.perFieldConfidence = some confidence ∧
    ∀ field ∈ recordFields, (∃ value, record.member? field = some value) ∧
      ∃ score, confidence.member? field = some score ∧ (score = .null ∨ ∃ q, score = .num q)

/-- What the stage of a claimed job leaves behind, by how it ended. -/
inductive StageChange (job : Job) : Except Exc Unit → Database → Database → Prop where
  | nothing {d : Database} (e : Exc) : StageChange job (.error e) d d
  | failed {d : Database} {x : Extraction} (e : Exc) (kind : job.kind = .extract)
      (document : HasDocument d x.documentId)
      (status : x.status = .failed) (fresh : ∀ y ∈ d.extractions, y.id ≠ x.id) :
      StageChange job (.error e) d { d with extractions := d.extractions ++ [x] }
  /-- The document was known; its provenance may have moved. -/
  | known {d : Database} {documents : List Document} {documentId jobId : Uuid} (now : Time)
      (kind : job.kind = .ingest) (document : HasDocument d documentId)
      (same : documents.map Document.id = d.documents.map Document.id)
      (fresh : ∀ j ∈ d.jobs, j.id ≠ jobId) :
      StageChange job (.ok ()) d
        { d with
          documents := documents
          jobs := d.jobs ++ [newJob jobId job.sourceId .extract (some documentId) now] }
  | ingested {d : Database} {document : Document} {jobId : Uuid} (now : Time)
      (kind : job.kind = .ingest) (fresh : ∀ j ∈ d.jobs, j.id ≠ jobId) :
      StageChange job (.ok ()) d
        { d with
          documents := d.documents ++ [document]
          jobs := d.jobs ++ [newJob jobId job.sourceId .extract (some document.id) now] }
  | duplicate {d : Database} (kind : job.kind = .extract) : StageChange job (.ok ()) d d
  /-- A complete extraction with its rows, and a routing pass over all rows. -/
  | extracted {d : Database} {x : Extraction} {rows reviews : List FieldReview}
      (kind : job.kind = .extract) (document : HasDocument d x.documentId)
      (status : x.status = .complete) (filled : x.Filled)
      (fresh : ∀ y ∈ d.extractions, y.id ≠ x.id)
      (first : ∀ y ∈ d.extractions, y.status = .complete → y.identity ≠ x.identity)
      (created : rows.map FieldReview.extracted = x.expected)
      (owned : ∀ r ∈ rows, r.extractionId = x.id) (table : ReviewTable (d.fieldReviews ++ rows))
      (kept : reviews.map FieldReview.origin = (d.fieldReviews ++ rows).map FieldReview.origin) :
      StageChange job (.ok ()) d
        { d with extractions := d.extractions ++ [x], fieldReviews := reviews }

/-- What a committed transaction leaves behind; `touched` are the jobs it has written. -/
inductive Change (maxAttempts : Nat) (d : Database) : List Uuid → Database → Prop where
  | idle : Change maxAttempts d [] d
  | register {source : Source} {jobId : Uuid} (now : Time)
      (freshSource : ∀ s ∈ d.sources, s.id ≠ source.id) (freshJob : ∀ j ∈ d.jobs, j.id ≠ jobId) :
      Change maxAttempts d []
        { d with
          sources := d.sources ++ [source]
          jobs := d.jobs ++ [newJob jobId source.id .ingest none now] }
  | work {job : Job} {claimedAt now : Time} {result : Except Exc Unit} {d' : Database}
      (member : job ∈ d.jobs) (queued : job.status = .queued)
      (stage : StageChange job result
        { d with
          jobs := replaceRow Job.id job.id
            ((job.claimed claimedAt).ended maxAttempts now result) d.jobs } d') :
      Change maxAttempts d [job.id] d'

/-! ### The invariant -/

/-- The extract jobs of a source. -/
def extractJobs (source : Uuid) (jobs : List Job) : Nat :=
  jobs.countP fun j => j.kind = .extract && j.sourceId = source

/-- The ingest jobs of a source that succeeded. -/
def ingestedJobs (source : Uuid) (jobs : List Job) : Nat :=
  jobs.countP fun j => j.kind = .ingest && j.status = .succeeded && j.sourceId = source

structure JobTable (maxAttempts : Nat) (jobs : List Job) : Prop where
  ids : Keyed Job.id jobs
  settled : ∀ j ∈ jobs, j.Settled maxAttempts

/-- The references for which the schema declares no foreign key. -/
structure References (d : Database) : Prop where
  jobSource : ∀ j ∈ d.jobs, ∃ s ∈ d.sources, s.id = j.sourceId
  jobDocument : ∀ j ∈ d.jobs, ∀ id, j.documentId = some id → HasDocument d id
  extractionDocument : ∀ x ∈ d.extractions, HasDocument d x.documentId
  reviewExtraction : ∀ r ∈ d.fieldReviews, ∃ x ∈ d.extractions, x.id = r.extractionId

/-- Every ingest hands over to an extraction. -/
structure Handover (d : Database) : Prop where
  balance : ∀ source, extractJobs source d.jobs = ingestedJobs source d.jobs
  targeted : ∀ x ∈ d.documents, ∃ j ∈ d.jobs, j.kind = .extract ∧ j.documentId = some x.id

/-- Extractions and the review rows that go with them. -/
structure Extracted (d : Database) : Prop where
  ids : Keyed Extraction.id d.extractions
  identities : ∀ x ∈ d.extractions, ∀ y ∈ d.extractions, x.status = .complete →
    y.status = .complete → x.identity = y.identity → x = y
  filled : ∀ x ∈ d.extractions, x.status = .complete → x.Filled
  table : ReviewTable d.fieldReviews
  rows : ∀ x ∈ d.extractions,
    (d.fieldReviews.filter (·.extractionId = x.id)).map FieldReview.extracted = x.expected

structure PipelineInvariant (maxAttempts : Nat) (d : Database) : Prop where
  sources : Keyed Source.id d.sources
  jobs : JobTable maxAttempts d.jobs
  references : References d
  handover : Handover d
  extracted : Extracted d

theorem pipelineInvariant_empty (maxAttempts : Nat) :
    PipelineInvariant maxAttempts Database.empty where
  sources := keyed_nil
  jobs := ⟨keyed_nil, by simp [Database.empty]⟩
  references := ⟨by simp [Database.empty], by simp [Database.empty], by simp [Database.empty],
    by simp [Database.empty]⟩
  handover := ⟨fun _ => rfl, by simp [Database.empty]⟩
  extracted := ⟨keyed_nil, by simp [Database.empty], by simp [Database.empty], reviewTable_nil,
    by simp [Database.empty]⟩

/-! ### Review rows by their origin -/

section Origin

variable {rows rows' : List FieldReview}

theorem extracted_of_origin (same : rows'.map FieldReview.origin = rows.map FieldReview.origin)
    (id : Uuid) :
    (rows'.filter (·.extractionId = id)).map FieldReview.extracted =
      (rows.filter (·.extractionId = id)).map FieldReview.extracted := by
  have through : ∀ rs : List FieldReview,
      (rs.filter (·.extractionId = id)).map FieldReview.extracted =
        ((rs.map FieldReview.origin).filter fun o => o.2.1 = id).map fun o => o.2.2 := by
    intro rs
    rw [List.filter_map, List.map_map]
    rfl
  rw [through, through, same]

theorem ReviewTable.of_origin (table : ReviewTable rows)
    (same : rows'.map FieldReview.origin = rows.map FieldReview.origin) : ReviewTable rows' := by
  have ids : ∀ rs : List FieldReview,
      rs.map FieldReview.id = (rs.map FieldReview.origin).map fun o => o.1 := by
    intro rs
    rw [List.map_map]
    rfl
  have slots : ∀ rs : List FieldReview,
      rs.map FieldReview.slot = (rs.map FieldReview.origin).map fun o => (o.2.1, o.2.2.1) := by
    intro rs
    rw [List.map_map]
    rfl
  refine ⟨?_, ?_⟩
  · rw [Keyed, ids, same, ← ids]
    exact table.ids
  · rw [Keyed, slots, same, ← slots]
    exact table.slots

theorem mem_of_origin (same : rows'.map FieldReview.origin = rows.map FieldReview.origin)
    {r : FieldReview} (member : r ∈ rows') : ∃ s ∈ rows, s.origin = r.origin := by
  have := List.mem_map_of_mem (f := FieldReview.origin) member
  rw [same] at this
  exact List.mem_map.mp this

end Origin

/-! ### The stages keep it -/

section Stage

variable {job : Job} {result : Except Exc Unit} {d d' : Database} {maxAttempts : Nat}

theorem JobTable.append {jobs : List Job} (table : JobTable maxAttempts jobs)
    (positive : 1 ≤ maxAttempts) {jobId sourceId : Uuid} {kind : JobKind}
    {documentId : Option Uuid} {now : Time} (fresh : ∀ j ∈ jobs, j.id ≠ jobId)
    (document : kind = .extract ↔ documentId.isSome = true) :
    JobTable maxAttempts (jobs ++ [newJob jobId sourceId kind documentId now]) := by
  refine ⟨table.ids.append fresh, fun j hj => ?_⟩
  obtain old | new := List.mem_append.mp hj
  · exact table.settled j old
  · exact List.mem_singleton.mp new ▸ newJob_settled positive document

theorem StageChange.jobTable (change : StageChange job result d d') (positive : 1 ≤ maxAttempts)
    (table : JobTable maxAttempts d.jobs) : JobTable maxAttempts d'.jobs := by
  cases change with
  | known now kind document same fresh => exact table.append positive fresh (by simp)
  | ingested now kind fresh => exact table.append positive fresh (by simp)
  | nothing => exact table
  | failed => exact table
  | duplicate => exact table
  | extracted => exact table

theorem hasDocument_of_ids {documents : List Document}
    (same : documents.map Document.id = d.documents.map Document.id) {id : Uuid} :
    (∃ x ∈ documents, x.id = id) ↔ HasDocument d id := by
  have through : ∀ xs : List Document, (∃ x ∈ xs, x.id = id) ↔ id ∈ xs.map Document.id :=
    fun xs => List.mem_map.symm
  rw [HasDocument, through, through, same]

/-- Documents stay. -/
theorem StageChange.hasDocument (change : StageChange job result d d') {id : Uuid}
    (document : HasDocument d id) : HasDocument d' id := by
  cases change with
  | known now kind found same fresh => exact (hasDocument_of_ids same).mpr document
  | ingested now kind fresh =>
      obtain ⟨x, member, rfl⟩ := document
      exact ⟨x, List.mem_append_left _ member, rfl⟩
  | nothing => exact document
  | failed => exact document
  | duplicate => exact document
  | extracted => exact document

theorem StageChange.sources (change : StageChange job result d d') : d'.sources = d.sources := by
  cases change <;> rfl

/-- A stage appends at most one job, which refers to a document that is there. -/
theorem StageChange.jobs (change : StageChange job result d d') :
    d'.jobs = d.jobs ∨ ∃ jobId documentId now, HasDocument d' documentId ∧
      d'.jobs = d.jobs ++ [newJob jobId job.sourceId .extract (some documentId) now] := by
  cases change with
  | known now kind found same fresh =>
      exact .inr ⟨_, _, now, (hasDocument_of_ids same).mpr found, rfl⟩
  | @ingested _ document _ now kind fresh => exact .inr ⟨_, _, now, ⟨document, by simp, rfl⟩, rfl⟩
  | nothing => exact .inl rfl
  | failed => exact .inl rfl
  | duplicate => exact .inl rfl
  | extracted => exact .inl rfl

/-- Extractions stay, and a new one is of a document that is there. -/
theorem StageChange.extractions (change : StageChange job result d d') :
    (∀ x ∈ d.extractions, x ∈ d'.extractions) ∧
      ∀ x ∈ d'.extractions, x ∈ d.extractions ∨ HasDocument d' x.documentId := by
  have appended : ∀ {x : Extraction} {P : Extraction → Prop}, P x →
      (∀ y ∈ d.extractions, y ∈ d.extractions ++ [x]) ∧
        ∀ y ∈ d.extractions ++ [x], y ∈ d.extractions ∨ P y := by
    refine fun holds => ⟨fun y hy => List.mem_append_left _ hy, fun y hy => ?_⟩
    obtain old | new := List.mem_append.mp hy
    · exact .inl old
    · obtain rfl := List.mem_singleton.mp new
      exact .inr holds
  cases change with
  | failed e kind document => exact appended (P := fun y => HasDocument d y.documentId) document
  | extracted kind document => exact appended (P := fun y => HasDocument d y.documentId) document
  | nothing => exact ⟨fun x hx => hx, fun x hx => .inl hx⟩
  | known => exact ⟨fun x hx => hx, fun x hx => .inl hx⟩
  | ingested => exact ⟨fun x hx => hx, fun x hx => .inl hx⟩
  | duplicate => exact ⟨fun x hx => hx, fun x hx => .inl hx⟩

/-- A review row is a version of an old one, or it belongs to an extraction of the stage. -/
theorem StageChange.reviews (change : StageChange job result d d') :
    ∀ r ∈ d'.fieldReviews, (∃ s ∈ d.fieldReviews, s.origin = r.origin) ∨
      ∃ x ∈ d'.extractions, x.id = r.extractionId := by
  intro r hr
  cases change with
  | @extracted _ x rows reviews kind document status filled fresh first created owned table kept =>
      obtain ⟨s, member, same⟩ := mem_of_origin kept hr
      obtain old | new := List.mem_append.mp member
      · exact .inl ⟨s, old, same⟩
      · refine .inr ⟨x, by simp, ?_⟩
        exact (owned s new).symm.trans (congrArg (fun o => o.2.1) same)
  | nothing => exact .inl ⟨r, hr, rfl⟩
  | failed => exact .inl ⟨r, hr, rfl⟩
  | known => exact .inl ⟨r, hr, rfl⟩
  | ingested => exact .inl ⟨r, hr, rfl⟩
  | duplicate => exact .inl ⟨r, hr, rfl⟩

theorem StageChange.references (change : StageChange job result d d')
    (refs : References d) (source : ∃ s ∈ d.sources, s.id = job.sourceId) : References d' := by
  have jobs : ∀ j ∈ d'.jobs, (∃ s ∈ d.sources, s.id = j.sourceId) ∧
      ∀ id, j.documentId = some id → HasDocument d' id := by
    have old : ∀ j ∈ d.jobs, (∃ s ∈ d.sources, s.id = j.sourceId) ∧
        ∀ id, j.documentId = some id → HasDocument d' id := fun j hj =>
      ⟨refs.jobSource j hj, fun id h => change.hasDocument (refs.jobDocument j hj id h)⟩
    obtain same | ⟨jobId, documentId, now, document, appended⟩ := change.jobs
    · exact same ▸ old
    · rw [appended]
      intro j hj
      obtain earlier | new := List.mem_append.mp hj
      · exact old j earlier
      · obtain rfl := List.mem_singleton.mp new
        refine ⟨source, fun id h => ?_⟩
        obtain rfl : documentId = id := Option.some.inj h
        exact document
  refine ⟨?_, fun j hj => (jobs j hj).2, ?_, ?_⟩
  · rw [change.sources]
    exact fun j hj => (jobs j hj).1
  · intro x hx
    obtain old | document := change.extractions.2 x hx
    · exact change.hasDocument (refs.extractionDocument x old)
    · exact document
  · intro r hr
    obtain ⟨s, old, same⟩ | new := change.reviews r hr
    · obtain ⟨x, member, id⟩ := refs.reviewExtraction s old
      exact ⟨x, change.extractions.1 x member, id.trans (congrArg (fun o => o.2.1) same)⟩
    · exact new

/-- Every document that a stage leaves behind is the target of an extract job. -/
theorem StageChange.targeted (change : StageChange job result d d')
    (targeted : ∀ x ∈ d.documents, ∃ j ∈ d.jobs, j.kind = .extract ∧ j.documentId = some x.id) :
    ∀ x ∈ d'.documents, ∃ j ∈ d'.jobs, j.kind = .extract ∧ j.documentId = some x.id := by
  intro x hx
  cases change with
  | known now kind found same fresh =>
      obtain ⟨y, member, id⟩ := (hasDocument_of_ids same).mp ⟨x, hx, rfl⟩
      obtain ⟨j, hj, extract, target⟩ := targeted y member
      exact ⟨j, List.mem_append_left _ hj, extract, id ▸ target⟩
  | ingested now kind fresh =>
      obtain earlier | new := List.mem_append.mp hx
      · obtain ⟨j, hj, target⟩ := targeted x earlier
        exact ⟨j, List.mem_append_left _ hj, target⟩
      · exact ⟨_, List.mem_append_right _ (List.mem_singleton_self _), rfl,
          congrArg (fun y : Document => some y.id) (List.mem_singleton.mp new).symm⟩
  | nothing => exact targeted x hx
  | failed => exact targeted x hx
  | duplicate => exact targeted x hx
  | extracted => exact targeted x hx

theorem Extracted.frame (extracted : Extracted d) (extractions : d'.extractions = d.extractions)
    (reviews : d'.fieldReviews = d.fieldReviews) : Extracted d' := by
  obtain ⟨ids, identities, filled, table, rows⟩ := extracted
  refine ⟨?_, ?_, ?_, reviews ▸ table, ?_⟩
  · rwa [extractions]
  · rwa [extractions]
  · rwa [extractions]
  · rwa [extractions, reviews]

theorem StageChange.keeps_extracted (change : StageChange job result d d') (refs : References d)
    (extracted : Extracted d) : Extracted d' := by
  have absent : ∀ {x : Extraction}, (∀ y ∈ d.extractions, y.id ≠ x.id) →
      d.fieldReviews.filter (·.extractionId = x.id) = [] := by
    intro x fresh
    refine List.filter_eq_nil_iff.mpr fun r hr same => ?_
    obtain ⟨y, member, id⟩ := refs.reviewExtraction r hr
    exact fresh y member (id.trans (of_decide_eq_true same))
  cases change with
  | @failed _ x e kind document status fresh =>
      refine ⟨extracted.ids.append fresh, ?_, ?_, extracted.table, ?_⟩
      · intro y hy z hz first second same
        obtain oldY | newY := List.mem_append.mp hy
        · obtain oldZ | newZ := List.mem_append.mp hz
          · exact extracted.identities y oldY z oldZ first second same
          · rw [List.mem_singleton.mp newZ, status] at second
            cases second
        · rw [List.mem_singleton.mp newY, status] at first
          cases first
      · intro y hy complete
        obtain old | new := List.mem_append.mp hy
        · exact extracted.filled y old complete
        · rw [List.mem_singleton.mp new, status] at complete
          cases complete
      · intro y hy
        obtain old | new := List.mem_append.mp hy
        · exact extracted.rows y old
        · obtain rfl := List.mem_singleton.mp new
          rw [absent fresh, Extraction.expected, status]
          rfl
  | @extracted _ x rows reviews kind document status filled fresh first created owned table kept =>
      refine ⟨extracted.ids.append fresh, ?_, ?_, table.of_origin kept, ?_⟩
      · intro y hy z hz completeY completeZ same
        obtain oldY | newY := List.mem_append.mp hy
        · obtain oldZ | newZ := List.mem_append.mp hz
          · exact extracted.identities y oldY z oldZ completeY completeZ same
          · obtain rfl := List.mem_singleton.mp newZ
            exact absurd same (first y oldY completeY)
        · obtain rfl := List.mem_singleton.mp newY
          obtain oldZ | newZ := List.mem_append.mp hz
          · exact absurd same.symm (first z oldZ completeZ)
          · exact (List.mem_singleton.mp newZ).symm
      · intro y hy complete
        obtain old | new := List.mem_append.mp hy
        · exact extracted.filled y old complete
        · exact List.mem_singleton.mp new ▸ filled
      · intro y hy
        rw [extracted_of_origin kept, List.filter_append, List.map_append]
        obtain old | new := List.mem_append.mp hy
        · have others : rows.filter (·.extractionId = y.id) = [] := by
            refine List.filter_eq_nil_iff.mpr fun r hr same => fresh y old ?_
            exact (of_decide_eq_true same).symm.trans (owned r hr)
          rw [others, extracted.rows y old]
          exact List.append_nil _
        · obtain rfl := List.mem_singleton.mp new
          have all : rows.filter (·.extractionId = y.id) = rows :=
            List.filter_eq_self.mpr fun r hr => decide_eq_true (owned r hr)
          rw [absent fresh, all, created]
          rfl
  | nothing => exact extracted
  | known => exact extracted.frame rfl rfl
  | ingested => exact extracted.frame rfl rfl
  | duplicate => exact extracted

/-- Whether a stage hands over to an extraction for the source. -/
def Job.handsOver (job : Job) (result : Except Exc Unit) (source : Uuid) : Bool :=
  job.kind = .ingest && result.toBool && job.sourceId = source

theorem StageChange.counts (change : StageChange job result d d') (source : Uuid) :
    extractJobs source d'.jobs =
        extractJobs source d.jobs + (if job.handsOver result source then 1 else 0) ∧
      ingestedJobs source d'.jobs = ingestedJobs source d.jobs := by
  have handed : ∀ (jobId documentId : Uuid) (now : Time), job.kind = .ingest →
      extractJobs source (d.jobs ++ [newJob jobId job.sourceId .extract (some documentId) now]) =
          extractJobs source d.jobs +
            (if job.handsOver (Except.ok () : Except Exc Unit) source then 1 else 0) ∧
        ingestedJobs source (d.jobs ++ [newJob jobId job.sourceId .extract (some documentId) now]) =
          ingestedJobs source d.jobs := by
    intro jobId documentId now kind
    unfold extractJobs ingestedJobs Job.handsOver
    rw [List.countP_append, List.countP_append]
    simp [newJob, kind, Except.toBool, List.countP_cons]
  cases change with
  | known now kind found same fresh => exact handed _ _ now kind
  | ingested now kind fresh => exact handed _ _ now kind
  | nothing e => simp [Job.handsOver, Except.toBool]
  | failed e kind => simp [Job.handsOver, kind]
  | duplicate kind => simp [Job.handsOver, kind]
  | extracted kind => simp [Job.handsOver, kind]

/-! ### The changes keep it -/

/-- The counts after the mark of a queued job. -/
theorem counts_ended {jobs : List Job} (ids : Keyed Job.id jobs) (member : job ∈ jobs)
    (queued : job.status = .queued) {j : Job}
    (source : j.sourceId = job.sourceId) (kind : j.kind = job.kind)
    (succeeded : j.status = .succeeded ↔ result.toBool = true) (s : Uuid) :
    extractJobs s (replaceRow Job.id job.id j jobs) = extractJobs s jobs ∧
      ingestedJobs s (replaceRow Job.id job.id j jobs) =
        ingestedJobs s jobs + (if job.handsOver result s then 1 else 0) := by
  have extracts := ids.countP_replaceRow (fun k => k.kind = .extract && k.sourceId = s) member j
  have ingests := ids.countP_replaceRow
    (fun k => k.kind = .ingest && k.status = .succeeded && k.sourceId = s) member j
  simp only [kind, source, queued, succeeded] at extracts ingests
  refine ⟨?_, ?_⟩
  · unfold extractJobs
    omega
  · unfold ingestedJobs Job.handsOver
    simpa using ingests

/-- The tables after the mark of a job, before the rest of its change. -/
theorem PipelineInvariant.references_end (inv : PipelineInvariant maxAttempts d) {j : Job}
    (member : job ∈ d.jobs) (source : j.sourceId = job.sourceId)
    (document : j.documentId = job.documentId) :
    References { d with jobs := replaceRow Job.id job.id j d.jobs } := by
  have from_ : ∀ k ∈ replaceRow Job.id job.id j d.jobs, ∃ i ∈ d.jobs,
      k.sourceId = i.sourceId ∧ k.documentId = i.documentId := by
    intro k hk
    obtain rfl | ⟨old, _⟩ := mem_replaceRow hk
    · exact ⟨job, member, source, document⟩
    · exact ⟨k, old, rfl, rfl⟩
  refine ⟨?_, ?_, inv.references.extractionDocument, inv.references.reviewExtraction⟩
  · intro k hk
    obtain ⟨i, hi, same, _⟩ := from_ k hk
    rw [same]
    exact inv.references.jobSource i hi
  · intro k hk id target
    obtain ⟨i, hi, _, same⟩ := from_ k hk
    exact inv.references.jobDocument i hi id (same ▸ target)

theorem Change.invariant {touched : List Uuid} (change : Change maxAttempts d touched d')
    (positive : 1 ≤ maxAttempts) (inv : PipelineInvariant maxAttempts d) :
    PipelineInvariant maxAttempts d' := by
  cases change with
  | idle => exact inv
  | @register source jobId now freshSource freshJob =>
      refine ⟨inv.sources.append freshSource, inv.jobs.append positive freshJob (by simp), ?_, ?_,
        inv.extracted.frame rfl rfl⟩
      · refine ⟨?_, ?_, inv.references.extractionDocument, inv.references.reviewExtraction⟩
        · intro j hj
          obtain old | new := List.mem_append.mp hj
          · obtain ⟨s, hs, same⟩ := inv.references.jobSource j old
            exact ⟨s, List.mem_append_left _ hs, same⟩
          · obtain rfl := List.mem_singleton.mp new
            exact ⟨source, by simp, rfl⟩
        · intro j hj id target
          obtain old | new := List.mem_append.mp hj
          · exact inv.references.jobDocument j old id target
          · obtain rfl := List.mem_singleton.mp new
            cases target
      · refine ⟨fun id => ?_, fun x hx => ?_⟩
        · have balance := inv.handover.balance id
          unfold extractJobs ingestedJobs at balance ⊢
          rw [List.countP_append, List.countP_append]
          simpa [newJob, List.countP_cons] using balance
        · obtain ⟨j, hj, target⟩ := inv.handover.targeted x hx
          exact ⟨j, List.mem_append_left _ hj, target⟩
  | @work job claimedAt now result _ member queued stage =>
      generalize version : (job.claimed claimedAt).ended maxAttempts now result = j at stage
      have id : j.id = job.id := by rw [← version, Job.ended_id]; rfl
      have source : j.sourceId = job.sourceId := by rw [← version, Job.ended_sourceId]; rfl
      have document : j.documentId = job.documentId := by rw [← version, Job.ended_documentId]; rfl
      have kind : j.kind = job.kind := by rw [← version, Job.ended_kind]; rfl
      have settled : j.Settled maxAttempts :=
        version ▸ (inv.jobs.settled job member).ended queued claimedAt now result
      have succeeded : j.status = .succeeded ↔ result.toBool = true := by
        rw [← version]
        exact ended_succeeded_iff _ _ _ _
      have table : JobTable maxAttempts (replaceRow Job.id job.id j d.jobs) := by
        refine ⟨inv.jobs.ids.replaceRow id, fun k hk => ?_⟩
        obtain rfl | ⟨old, _⟩ := mem_replaceRow hk
        · exact settled
        · exact inv.jobs.settled k old
      have refs := inv.references_end member source document
      refine ⟨?_, stage.jobTable positive table, ?_, ⟨?_, ?_⟩, ?_⟩
      · rw [stage.sources]
        exact inv.sources
      · exact stage.references refs (inv.references.jobSource job member)
      · intro s
        obtain ⟨extracts, ingests⟩ := stage.counts s
        obtain ⟨before, after⟩ := counts_ended inv.jobs.ids member queued source kind succeeded s
        have balance := inv.handover.balance s
        dsimp only at extracts ingests
        omega
      · apply stage.targeted
        intro x hx
        obtain ⟨i, hi, extract, target⟩ := inv.handover.targeted x hx
        by_cases same : i.id = job.id
        · obtain rfl := inv.jobs.ids.eq_of_key hi member same
          exact ⟨j, after_mem_replaceRow member rfl, kind.trans extract, document.trans target⟩
        · exact ⟨i, mem_replaceRow_of_ne hi same, extract, target⟩
      · exact stage.keeps_extracted refs (inv.extracted.frame rfl rfl)

/-! ### What stays -/

/-- What a transaction may expect of the others: rows that it refers to stay, and a job
that has ended stays as it is. -/
structure Grows (d d' : Database) : Prop where
  sources : ∀ s ∈ d.sources, s ∈ d'.sources
  documents : ∀ id, HasDocument d id → HasDocument d' id
  terminal : ∀ j ∈ d.jobs, j.Terminal → j ∈ d'.jobs
  reviews : ∀ r ∈ d.fieldReviews, ∃ s ∈ d'.fieldReviews, s.origin = r.origin

theorem Grows.refl (d : Database) : Grows d d :=
  ⟨fun _ h => h, fun _ h => h, fun _ h _ => h, fun r h => ⟨r, h, rfl⟩⟩

theorem Grows.trans {a b c : Database} (first : Grows a b) (last : Grows b c) : Grows a c := by
  refine ⟨fun s h => last.sources s (first.sources s h),
    fun id h => last.documents id (first.documents id h),
    fun j h t => last.terminal j (first.terminal j h t) t, fun r h => ?_⟩
  obtain ⟨s, hs, same⟩ := first.reviews r h
  obtain ⟨t, ht, again⟩ := last.reviews s hs
  exact ⟨t, ht, again.trans same⟩

theorem StageChange.keeps_job (change : StageChange job result d d') {j : Job}
    (member : j ∈ d.jobs) : j ∈ d'.jobs := by
  obtain same | ⟨_, _, _, _, appended⟩ := change.jobs
  · exact same ▸ member
  · rw [appended]
    exact List.mem_append_left _ member

theorem StageChange.keeps_reviews (change : StageChange job result d d') :
    ∀ r ∈ d.fieldReviews, ∃ s ∈ d'.fieldReviews, s.origin = r.origin := by
  intro r hr
  cases change with
  | extracted kind document status filled fresh first created owned table kept =>
      exact mem_of_origin kept.symm (List.mem_append_left _ hr)
  | nothing => exact ⟨r, hr, rfl⟩
  | failed => exact ⟨r, hr, rfl⟩
  | known => exact ⟨r, hr, rfl⟩
  | ingested => exact ⟨r, hr, rfl⟩
  | duplicate => exact ⟨r, hr, rfl⟩

variable {touched : List Uuid}

/-- A job that the change does not write stays as it is. -/
theorem Change.keeps_job (change : Change maxAttempts d touched d') {j : Job}
    (member : j ∈ d.jobs) (other : j.id ∉ touched) : j ∈ d'.jobs := by
  cases change with
  | idle => exact member
  | register => exact List.mem_append_left _ member
  | work known queued stage =>
      apply stage.keeps_job
      exact mem_replaceRow_of_ne member (by simpa using other)

theorem Change.grows (change : Change maxAttempts d touched d') (ids : Keyed Job.id d.jobs) :
    Grows d d' := by
  have terminal : ∀ j ∈ d.jobs, j.Terminal → j ∈ d'.jobs := by
    intro j hj ended
    apply change.keeps_job hj
    cases change with
    | idle => simp
    | register => simp
    | work known queued stage =>
        rw [List.mem_singleton]
        intro same
        obtain rfl := ids.eq_of_key hj known same
        obtain h | h := ended <;> rw [queued] at h <;> cases h
  cases change with
  | idle => exact .refl d
  | register =>
      exact ⟨fun s h => List.mem_append_left _ h, fun id h => h, terminal, fun r h => ⟨r, h, rfl⟩⟩
  | work known queued stage =>
      refine ⟨fun s h => ?_, fun id h => stage.hasDocument h, terminal, stage.keeps_reviews⟩
      rw [stage.sources]
      exact h

/-- A job that the change writes has had one more attempt. -/
theorem Change.attempts (change : Change maxAttempts d touched d') {id : Uuid}
    (written : id ∈ touched) :
    ∃ j ∈ d.jobs, ∃ k ∈ d'.jobs, j.id = id ∧ k.id = id ∧ j.status = .queued ∧
      k.attempts = j.attempts + 1 := by
  cases change with
  | idle => simp at written
  | register => simp at written
  | @work job claimedAt now result _ known queued stage =>
      obtain rfl := List.mem_singleton.mp written
      refine ⟨job, known, _, stage.keeps_job (after_mem_replaceRow known rfl), rfl, ?_, queued, ?_⟩
      · rw [Job.ended_id]
        rfl
      · cases result <;> rfl

/-- A failed ingest leaves nothing behind but the mark of its job. -/
theorem Change.failed_ingest (change : Change maxAttempts d touched d')
    (ids : Keyed Job.id d.jobs) (ids' : Keyed Job.id d'.jobs) (member : job ∈ d.jobs)
    (written : job.id ∈ touched) (kind : job.kind = .ingest) {marked : Job}
    (after : marked ∈ d'.jobs) (same : marked.id = job.id) (failed : marked.status ≠ .succeeded) :
    d' = { d with jobs := replaceRow Job.id job.id marked d.jobs } := by
  cases change with
  | idle => simp at written
  | register => simp at written
  | @work claimed claimedAt now result _ known queued stage =>
      obtain rfl := ids.eq_of_key known member (List.mem_singleton.mp written).symm
      have version := stage.keeps_job (after_mem_replaceRow known rfl)
      obtain rfl := ids'.eq_of_key after version (by rw [same, Job.ended_id, Job.claimed_id])
      cases stage with
      | nothing => rfl
      | failed e extract => cases kind.symm.trans extract
      | duplicate extract => cases kind.symm.trans extract
      | extracted extract => cases kind.symm.trans extract
      | known => exact absurd rfl failed
      | ingested => exact absurd rfl failed

end Stage

end IncidentPipeline
