import IncidentPipeline.Db.Constraints
import IncidentPipeline.Extract.Conversation
import IncidentPipeline.Worker.Reextraction

/-!
# Confidences that are no numbers

The decoder reads `NaN`, and no bound of a field excludes it. The extraction row stores
`null` for it, and the review row NaN. Where the model gives numbers, the review rows say
what the extraction row says.
-/

namespace IncidentPipeline

open Python Tables Transactions

/-- What Python reads from the column. -/
def Confidence.value : Confidence → Json
  | some q => .num q
  | none => .nonFinite .nan

/-- Whatever document the model is asked about, no answer that it gives and that passes validation
has NaN for a confidence. -/
def LLMClient.AnswersNumbers (rt : Runtime) (maxAttempts : Nat) (client : LLMClient) : Prop :=
  ∀ documentText documentTitle sourceUrl k messages response output,
    (extractCalls rt client maxAttempts documentText documentTitle sourceUrl)[k]? = some messages →
    client.complete (k + 1) messages = .ok response →
    validateOutput rt response.text = .ok (.ok output) → ∀ field ∈ recordFields,
      (memberOf output "confidence").member? field ≠ some (.nonFinite .nan)

/-- The pass has a model that gives numbers, if it has one. -/
def JobEnv.AnswersNumbers (cfg : Settings) (env : JobEnv) : Prop :=
  ∀ client, env.client = .ok client → client.AnswersNumbers env.rt cfg.extractionMaxAttempts

/-- Every score of the row is a number. -/
def Extraction.HasNumbers (x : Extraction) : Prop :=
  ∀ field ∈ recordFields, ∃ q, (x.perFieldConfidence.getD .null).member? field = some (.num q)

/-- An operation that stores a complete extraction stores numbers. -/
def StoresNumbers (o : RowOp) : Prop :=
  ∀ x, o = .insertExtraction x → x.status = .complete → x.HasNumbers

/-! ### What a pass writes -/

section Writes

variable {rt : Runtime} {client : LLMClient} {maxAttempts : Nat}

/-- What the loop returns is the answer to one of its calls. -/
theorem callsLoop_answered {remaining number : Nat} {messages : List ChatMessage}
    {attempts : List Attempt} {result : ExtractionResult}
    (h : (callsLoop rt client maxAttempts remaining number messages attempts).1 = .ok result) :
    ∃ k asked response,
      (callsLoop rt client maxAttempts remaining number messages attempts).2[k]? = some asked ∧
        client.complete (number + k) asked = .ok response ∧
        validateOutput rt response.text = .ok (.ok result.output) := by
  induction remaining generalizing number messages attempts with
  | zero => cases h
  | succ remaining ih =>
      rw [callsLoop] at h ⊢
      split at h
      · cases h
      · next response answered =>
          split at h
          · cases h
          · next output valid =>
              cases h
              exact ⟨0, messages, response, rfl, answered, valid⟩
          · obtain ⟨k, asked, last, listed, again, valid⟩ := ih h
            refine ⟨k + 1, asked, last, listed, ?_, valid⟩
            rw [← again, Nat.add_right_comm, Nat.add_assoc]

theorem extract_asked {documentText sourceUrl : String} {documentTitle : Option String}
    {result : ExtractionResult}
    (h : extract rt client maxAttempts documentText documentTitle sourceUrl = .ok result) :
    ∃ k messages response,
      (extractCalls rt client maxAttempts documentText documentTitle sourceUrl)[k]? =
        some messages ∧
      client.complete (k + 1) messages = .ok response ∧
      validateOutput rt response.text = .ok (.ok result.output) := by
  rw [extract] at h
  rw [extractCalls]
  split at h
  · cases h
  · next some_ =>
      rw [← callsLoop_fst] at h
      obtain ⟨k, messages, response, listed, answered, valid⟩ := callsLoop_answered h
      rw [if_neg some_]
      exact ⟨k, messages, response, listed, Nat.add_comm 1 k ▸ answered, valid⟩

theorem extract_numbers {documentText sourceUrl : String}
    {documentTitle : Option String} {result : ExtractionResult}
    (numbers : client.AnswersNumbers rt maxAttempts)
    (h : extract rt client maxAttempts documentText documentTitle sourceUrl = .ok result) :
    ∀ field ∈ recordFields,
      ∃ q, (memberOf result.output "confidence").member? field = some (.num q) := by
  intro field member
  obtain ⟨score, found, ⟨q, rfl⟩ | rfl⟩ := (extract_filled h field member).2
  · exact ⟨q, found⟩
  · obtain ⟨k, messages, response, asked, answered, valid⟩ := extract_asked h
    exact absurd found (numbers _ _ _ k messages response result.output asked answered valid field
      member)

theorem extractDocument_storesNumbers {ids : ExtractIds} {now : Time} {documentId : Uuid}
    (numbers : client.AnswersNumbers rt maxAttempts) :
    (extractDocument rt ids now client maxAttempts documentId).Writes StoresNumbers := by
  refine extractDocument_writes_of fun doc o writes x same complete => ?_
  subst same
  cases extracted : extract rt client maxAttempts doc.text doc.title doc.sourceUrl with
  | error e =>
      rw [extracted] at writes
      obtain rfl : x = _ := writes
      cases complete
  | ok result =>
      rw [extracted] at writes
      obtain ⟨record, rfl⟩ := writes
      intro field member
      obtain ⟨q, found⟩ := extract_numbers numbers extracted field member
      refine ⟨q, ?_⟩
      show (dumpConfidence (memberOf result.output "confidence")).member? field = _
      rw [member?_dumpConfidence, found]
      rfl

end Writes

section Runs

variable {maxAttempts : Nat} {allowed : Settings → JobEnv → Prop} {w : WorkerWorld}

/-- At any moment of a run in which the models give numbers. -/
theorem reachable_numbers (numbers : ∀ cfg env, allowed cfg env → env.AnswersNumbers cfg)
    (reachable : Reachable (workerSystem maxAttempts allowed) Database.empty w) :
    ∀ x ∈ w.committed.extractions, x.status = .complete → x.HasNumbers := by
  obtain ⟨labels, run⟩ := reachable
  refine @Run.keeps_written _ _ _ _ _ StoresNumbers
    (fun d => ∀ x ∈ d.extractions, x.status = .complete → x.HasNumbers)
    (workerSystem maxAttempts allowed) labels w Database.empty (fun p program => ?_)
    ⟨Database.empty, []⟩ ?_ run (by simp [Database.empty])
  · refine workerProgram_writes program (fun o other x same => absurd same (other x)) ?_
    exact fun cfg env client documentId meets built =>
      extractDocument_storesNumbers (numbers cfg env meets client built)
  · intro o d d' stores written kept
    obtain ⟨_, rfl⟩ := RowOp.apply_eq_ok.mp written
    cases o with
    | insertExtraction row => exact forall_append kept (stores row rfl)
    | _ => exact kept

/-- The five tables under every interleaving of registrations and workers whose models give
numbers: ingests and extract jobs balance and a failed ingest leaves nothing behind, every
document is the target of an extract job, no reference dangles, a complete extraction has
exactly the review rows that its record and its confidences ask for and a failed one has
none, and complete extractions are unique. -/
theorem pipeline_interleavings (positive : 1 ≤ maxAttempts)
    (numbers : ∀ cfg env, allowed cfg env → env.AnswersNumbers cfg)
    (reachable : Reachable (workerSystem maxAttempts allowed) Database.empty w) :
    let d := w.committed
    (∀ source, extractJobs source d.jobs = ingestedJobs source d.jobs) ∧
    (∀ s v, Step (workerSystem maxAttempts allowed) w (.committed s) v →
      ∀ job ∈ held s, job.kind = .ingest → ∀ marked ∈ v.committed.jobs, marked.id = job.id →
        marked.status ≠ .succeeded →
          v.committed = { d with jobs := replaceRow Job.id job.id marked d.jobs }) ∧
    (∀ x ∈ d.documents, ∃ j ∈ d.jobs, j.kind = .extract ∧ j.documentId = some x.id) ∧
    (∀ j ∈ d.jobs, ∃ s ∈ d.sources, s.id = j.sourceId) ∧
    (∀ j ∈ d.jobs, ∀ id, j.documentId = some id → ∃ x ∈ d.documents, x.id = id) ∧
    (∀ x ∈ d.extractions, ∃ y ∈ d.documents, y.id = x.documentId) ∧
    (∀ r ∈ d.fieldReviews, ∃ x ∈ d.extractions, x.id = r.extractionId) ∧
    (∀ x ∈ d.extractions, x.status = .complete →
      ∃ record confidence, x.record = some record ∧ x.perFieldConfidence = some confidence ∧
        (∀ field ∈ recordFields, (∃ value, record.member? field = some value) ∧
          ∃ score, confidence.member? field = some (.num score)) ∧
        (d.fieldReviews.filter (·.extractionId = x.id)).map
            (fun r => (r.field, r.modelValue, r.confidence.value)) =
          recordFields.map fun field =>
            (field, memberOf record field, memberOf confidence field)) ∧
    (∀ x ∈ d.extractions, x.status = .failed →
      d.fieldReviews.filter (·.extractionId = x.id) = []) ∧
    ((d.extractions.filter (·.status = .complete)).map Extraction.identity).Nodup := by
  obtain ⟨balance, failed, targeted, jobSource, jobDocument, extractionDocument, reviewExtraction,
    complete, none_kept, unique⟩ := pipeline_tables positive reachable
  refine ⟨balance, failed, targeted, jobSource, jobDocument, extractionDocument, reviewExtraction,
    fun x member done => ?_, none_kept, unique⟩
  obtain ⟨record, confidence, hasRecord, hasConfidence, filled, rows⟩ := complete x member done
  have scored := reachable_numbers numbers reachable x member done
  rw [Extraction.HasNumbers, hasConfidence] at scored
  refine ⟨record, confidence, hasRecord, hasConfidence,
    fun field known => ⟨(filled field known).1, scored field known⟩, ?_⟩
  have values := congrArg (List.map fun c : String × Json × Confidence =>
    (c.1, c.2.1, c.2.2.value)) rows
  rw [List.map_map, List.map_map] at values
  refine values.trans (List.map_congr_left fun field known => ?_)
  obtain ⟨q, found⟩ := scored field known
  have score : memberOf confidence field = .num q := memberOf_eq found
  simp only [Function.comp_apply, score]
  rfl

end Runs

/-! A model that gives a number for each field, and one that gives NaN for the title. -/

theorem processClient_numbers (runId : String) :
    (processClient runId).AnswersNumbers sampleRuntime cappedSettings.extractionMaxAttempts := by
  intro _ _ _ _ messages response output _ _ valid field member found
  have sample : validateOutput sampleRuntime response.text = .ok (.ok sampleOutput) := by rfl
  obtain rfl := Except.ok.inj (Except.ok.inj (valid.symm.trans sample))
  have listed : (field, Json.num 1) ∈ recordFields.map fun field => (field, Json.num 1) :=
    List.mem_map_of_mem member
  have one : (memberOf sampleOutput "confidence").member? field = some (.num 1) :=
    Dict.get?_of_mem (d := recordFields.map fun field => (field, Json.num 1)) (by decide) listed
  rw [one] at found
  cases found

/-- The rows of the page say what its extraction says. -/
theorem pipeline_interleavings_extracted :
    (extracted.fieldReviews.filter (·.extractionId = 30)).map
        (fun r => (r.field, r.modelValue, r.confidence.value)) =
      recordFields.map fun field => (field, memberOf (.obj (sparseRecord "Org")) field,
        memberOf (.obj (recordFields.map fun field => (field, .num 1))) field) := by
  have answers : ∀ now id, (processEnv "run a" now id).AnswersNumbers cappedSettings := by
    intro now id client built
    cases built
    exact processClient_numbers "run a"
  have reached : Reachable (workerSystem 3 fun cfg env => env.AnswersNumbers cfg) Database.empty
      ⟨extracted, []⟩ :=
    extracted_reachable_of (answers 5 20) (answers 6 30)
  obtain ⟨_, _, _, _, _, _, _, complete, _⟩ := pipeline_interleavings (by decide)
    (fun _ _ meets => meets) reached
  obtain ⟨record, confidence, hasRecord, hasConfidence, _, rows⟩ :=
    complete (sampleExtraction "run a" 30 6) (List.mem_singleton_self _) rfl
  cases hasRecord
  cases hasConfidence
  exact rows

def nanScores : Json :=
  .obj (recordFields.map fun field =>
    (field, if field = "title" then .nonFinite .nan else .num 1))

def nanOutput : Json := .obj [("record", .obj (sparseRecord "Org")), ("confidence", nanScores)]

def nanEnv : JobEnv :=
  { processEnv "run a" 6 30 with rt := { Runtime.ascii with loads := fun _ => .value nanOutput } }

def nanExtraction : Extraction :=
  completeExtraction 30 6 (processClient "run a") 3 (.obj (sparseRecord "Org")) nanScores
    [attemptOf 1 sampleMessage.toResponse (.ok nanOutput)]

def nanExtracted : Database :=
  { ingested with
    jobs := [doneIngest 2 1 0 5, ((extractJob 22 1 5).claimed 6).succeed 6]
    extractions := [nanExtraction]
    fieldReviews :=
      fieldReviewRows (fun n => 100 * 30 + n) 30 6 (.obj (sparseRecord "Org")) nanScores }

theorem nanExtracted_alone : (workerPass nanEnv).serial postgres ⟨ingested, []⟩
    ⟨ingested, false⟩ = (.ok (.worked true), ⟨nanExtracted, false⟩) :=
  @runOnce_alone _ _ _ _ _ _ (extractJob 22 1 5) (.ok ()) (by decide) (by decide) rfl rfl rfl

/-- The score of the title is NaN in the review row and null in the extraction row. -/
theorem pipeline_loses_nan :
    Reachable (workerSystem 3 fun _ _ => True) Database.empty ⟨nanExtracted, []⟩ ∧
      ∃ x ∈ nanExtracted.extractions, x.status = .complete ∧
        ∃ confidence, x.perFieldConfidence = some confidence ∧
          ¬ ∀ r ∈ nanExtracted.fieldReviews, r.extractionId = x.id →
            r.confidence.value = memberOf confidence r.field := by
  refine ⟨Reachable.transact (ingested_reachable trivial) (.run rfl trivial)
    (by simp [workerSystem]) nanExtracted_alone, nanExtraction, List.mem_singleton_self _, rfl, _,
    rfl, fun same => ?_⟩
  have title : newFieldReview 3004 30 6 (.obj (sparseRecord "Org")) nanScores "title" ∈
      nanExtracted.fieldReviews :=
    List.mem_map.mpr ⟨("title", 4), by decide, rfl⟩
  have kept : Json.nonFinite .nan = .null := same _ title rfl
  cases kept

end IncidentPipeline
