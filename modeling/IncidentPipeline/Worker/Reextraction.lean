import IncidentPipeline.Worker.Attempts
import IncidentPipeline.Worker.Audit

/-!
# Documents that are extracted again

Every ingest enqueues an extract job, also for a document that is known. What keeps such
a job from calling the model is a complete row under the identity of the client, and the
run of a client is part of that identity: a client without a configured run draws one of
its own.
-/

namespace IncidentPipeline

open Python Tables Transactions

/-- What names a client on the rows it leaves. -/
def LLMClient.identity (client : LLMClient) : String × String × String × String :=
  (client.provider, client.model, client.thinking, client.runId)

/-! ### Rows that stay -/

section Stay

variable {maxAttempts : Nat} {allowed : Settings → JobEnv → Prop} {u v : WorkerWorld}
  {label : Label RowOp} {labels : List (Label RowOp)} {x : Extraction}

theorem Step.keeps_extraction (step : Step (workerSystem maxAttempts allowed) u label v)
    (member : x ∈ u.committed.extractions) : x ∈ v.committed.extractions := by
  cases step with
  | commit alive applies =>
      rw [replay_extractions applies]
      exact List.mem_append_left _ member
  | _ => exact member

/-- An extraction is there for good. -/
theorem Run.keeps_extraction (run : Run (workerSystem maxAttempts allowed) u labels v)
    (member : x ∈ u.committed.extractions) : x ∈ v.committed.extractions :=
  run.induction (P := fun w => x ∈ w.committed.extractions) member fun step =>
    Step.keeps_extraction step

end Stay

/-! ### A job for a known document -/

section Known

variable {cfg : Settings} {env : JobEnv} {job : Job} {client : LLMClient} {documentId : Uuid}
  {schedule : Nat → Moment Context Database Exc} {session : Session RowOp} {x : Extraction}

/-- With a complete row in sight, an extract job ends after one lookup, whatever a client
of that identity would answer. -/
theorem processExtract_known (document : job.documentId = some documentId)
    (known : ∀ visible, postgres.replay session.log (schedule 0).committed = .ok visible →
      ∃ x ∈ visible.extractions, x.isCompleteFor client documentId = true) :
    ∃ result session', session'.log = session.log ∧ ∀ other : LLMClient,
      other.identity = client.identity →
        (processExtract cfg { env with client := .ok other } job).run postgres schedule session =
          ⟨result, session', fun n => schedule (n + 1)⟩ := by
  have program : ∀ other : LLMClient, other.identity = client.identity →
      ∃ f : Option Extraction → Db Unit, (∀ row, f (some row) = .ret (.ok ())) ∧
        processExtract cfg { env with client := .ok other } job =
          (Prog.execute (select (identityTexts client) fun d =>
            d.extractions.find? (·.isCompleteFor client documentId))).bind f := by
    intro other same
    obtain ⟨provider, model, thinking, runId, complete⟩ := client
    obtain ⟨provider', model', thinking', runId', complete'⟩ := other
    simp only [LLMClient.identity, Prod.mk.injEq] at same
    obtain ⟨rfl, rfl, rfl, rfl⟩ := same
    rw [processExtract]
    rw [document]
    show ∃ f, _ ∧ Prog.bind (extractDocument _ _ _ _ _ _) _ = _
    rw [extractDocument_eq, Prog.bind_assoc]
    exact ⟨_, fun row => rfl, rfl⟩
  obtain ⟨e, refused, served⟩ | ⟨_, e, served⟩ |
      ⟨_, _, _, visible, reply, ops, _, seen, answer, _, served⟩ :=
    postgres.serve_cases (select (identityTexts client) fun d =>
      d.extractions.find? (·.isCompleteFor client documentId)) (schedule 0) session
  · refine ⟨.error e, session, rfl, fun other same => ?_⟩
    obtain ⟨f, _, runs⟩ := program other same
    rw [runs, Prog.run_execute_bind, served]
  · refine ⟨.error e, { session with aborted := true }, rfl, fun other same => ?_⟩
    obtain ⟨f, _, runs⟩ := program other same
    rw [runs, Prog.run_execute_bind, served]
  · cases answer
    obtain ⟨x, member, complete⟩ := known visible seen
    have there : (visible.extractions.find? (·.isCompleteFor client documentId)).isSome = true :=
      List.find?_isSome.mpr ⟨x, member, complete⟩
    obtain ⟨row, found⟩ := Option.isSome_iff_exists.mp there
    refine ⟨.ok (), session, rfl, fun other same => ?_⟩
    obtain ⟨f, ends, runs⟩ := program other same
    rw [runs, Prog.run_execute_bind, served]
    dsimp only
    rw [found, ends, List.append_nil]
    rfl

/-- Once a document has a complete extraction under the identity of a client, no later
extract job for it that a process with such a client takes calls the model: the pass is
the same whatever the client would answer, and its stage writes nothing. -/
theorem known_document_silent {maxAttempts : Nat} {allowed : Settings → JobEnv → Prop}
    {w : WorkerWorld} (member : x ∈ w.committed.extractions)
    (complete : x.isCompleteFor client documentId = true)
    (later : ∀ n, ∃ labels v, Run (workerSystem maxAttempts allowed) w labels v ∧
      (schedule n).committed = v.committed)
    (claims : (claimRun cfg env schedule).session = ⟨claimLog job env.now, false⟩)
    (kind : job.kind = .extract) (document : job.documentId = some documentId)
    (built : env.client = .ok client) :
    (∀ other : LLMClient, other.identity = client.identity →
      (runOnce cfg { env with client := .ok other }).run postgres schedule .fresh =
        (runOnce cfg env).run postgres schedule .fresh) ∧
      (stageRun cfg env schedule job).session.log = claimLog job env.now := by
  have first : (claimRun cfg env schedule).rest = fun n => schedule (n + 1) := rfl
  have known : ∀ visible, postgres.replay (claimRun cfg env schedule).session.log
      ((claimRun cfg env schedule).rest 0).committed = .ok visible →
      ∃ x ∈ visible.extractions, x.isCompleteFor client documentId = true := by
    intro visible seen
    obtain ⟨labels, v, run, same⟩ := later 1
    refine ⟨x, ?_, complete⟩
    rw [replay_extractions seen, first, same]
    exact List.mem_append_left _ (Run.keeps_extraction run member)
  have stage : ∀ other : LLMClient, stageRun cfg { env with client := .ok other } schedule job =
      (processExtract cfg { env with client := .ok other } (job.claimed env.now)).run postgres
        (claimRun cfg env schedule).rest (claimRun cfg env schedule).session := by
    intro other
    have program : processJob cfg { env with client := .ok other } (job.claimed env.now) =
        processExtract cfg { env with client := .ok other } (job.claimed env.now) := by
      rw [processJob]
      rw [show (job.claimed env.now).kind = .extract from kind]
    rw [← program]
    rfl
  have whole : { env with client := .ok client } = env := by rw [← built]
  obtain ⟨result, session, log, runs⟩ := @processExtract_known cfg env (job.claimed env.now) client
    documentId _ _ document known
  have claimed := claimRun_claims claims
  have mine := (stage client).trans (runs client rfl)
  rw [whole] at mine
  refine ⟨fun other same => ?_, ?_⟩
  · rw [runOnce_claimed claimed,
      @runOnce_claimed cfg { env with client := .ok other } _ job claimed, stage other,
      runs other same, mine]
  · rw [mine]
    show session.log = _
    rw [log, claims]

end Known

/-! ### Passes one after another -/

/-- A pass that runs alone: its claim, its stage, and the mark. -/
theorem runOnce_alone {cfg : Settings} {env : JobEnv} {d d₁ d₂ d₃ : Database} {job : Job}
    {result : Except Exc Unit}
    (candidates : d.jobs.filter (claimable env.now cfg.jobVisibilityTimeout) = [job])
    (found : d.jobs.find? (fun j => j.id = job.id &&
      claimable env.now cfg.jobVisibilityTimeout j) = some job)
    (claimed : postgres.replay [.updateJob job (job.claimed env.now)] d = .ok d₁)
    (stage : (processJob cfg env (job.claimed env.now)).serial postgres ⟨d, []⟩ ⟨d₁, false⟩ =
      (result, ⟨d₂, false⟩))
    (mark : (finishJob cfg env.now (job.claimed env.now) result).serial postgres ⟨d, []⟩
      ⟨d₂, false⟩ = (.ok true, ⟨d₃, false⟩)) :
    ((runOnce cfg env).bind fun claimed => (.ret (.ok (.worked claimed)) : Db Reply)).serial
      postgres ⟨d, []⟩ ⟨d, false⟩ = (.ok (.worked true), ⟨d₃, false⟩) := by
  have target : claimTarget env.now cfg.jobVisibilityTimeout ⟨d, []⟩ d = some job :=
    claimTarget_single candidates found (by simp)
  have claim : (claimOne env.now cfg.jobVisibilityTimeout).serial postgres ⟨d, []⟩ ⟨d, false⟩ =
      (.ok (some (job.claimed env.now)), ⟨d₁, false⟩) := by
    have answer : (claimSql env.now cfg.jobVisibilityTimeout).run ⟨d, []⟩ d =
        .ok (some (job.claimed env.now), [.updateJob job (job.claimed env.now)]) := by
      simp [claimSql, sql, target]
    exact Prog.serial_execute_ok rfl answer claimed
  have pass : (runOnce cfg env).serial postgres ⟨d, []⟩ ⟨d, false⟩ =
      (.ok true, ⟨d₃, false⟩) := by
    rw [runOnce]
    rw [Prog.bind_eq, Prog.serial_bind, claim]
    show ((processJob cfg env (job.claimed env.now)).attempt.bind _).serial _ _ _ = _
    rw [Prog.serial_bind, Prog.serial_attempt, stage]
    exact mark
  rw [Prog.serial_bind, pass]
  rfl

/-- The workers of one configuration: each builds its client from the same settings. -/
def Configured (cfg : LlmSettings) (_ : Settings) (env : JobEnv) : Prop :=
  ∃ rt sdk uuid, env.client = buildLlmClient rt sdk uuid cfg

/-! One document, which two processes of one configuration extract. -/

def sampleOutput : Json :=
  .obj [("record", .obj (sparseRecord "Org")),
    ("confidence", .obj (recordFields.map fun field => (field, .num 1)))]

def sampleRuntime : Runtime := { Runtime.ascii with loads := fun _ => .value sampleOutput }

def sampleMessage : ApiMessage :=
  ⟨[⟨"text", "sample"⟩], "m", some "end_turn", some 10, some 5, none, none, none⟩

def configuration : LlmSettings := ⟨some "anthropic", some "m", some "default", none⟩

def processClient (runId : String) : LLMClient :=
  anthropicClient "m" "default" runId fun _ _ => .message sampleMessage

theorem processClient_built (uuid : String) :
    buildLlmClient sampleRuntime (.ok fun _ _ _ => .message sampleMessage) uuid configuration =
      .ok (processClient uuid) := by
  have provider : lowerText "anthropic" = "anthropic" := by
    rw [lowerText_eq]
    rfl
  have accepted : thinkingRequestParams sampleRuntime "default" = .ok ⟨none, none⟩ := by rfl
  unfold buildLlmClient newAnthropicClient
  simp only [configuration, provider, accepted]
  rfl

def cappedSettings : Settings := { smallSettings with reviewBudget := some 0 }

/-- A pass of the process with the given run. -/
def processEnv (runId : String) (now : Time) (id : Uuid) : JobEnv :=
  ⟨now, smallIngest, id + 2, sampleRuntime, .ok (processClient runId),
    ⟨id, id + 1, fun n => 100 * id + n⟩⟩

theorem processEnv_configured (runId : String) (now : Time) (id : Uuid) :
    Configured configuration cappedSettings (processEnv runId now id) :=
  ⟨sampleRuntime, _, runId, (processClient_built runId).symm⟩

def pageDocument : Document :=
  ⟨3, 1, "https://example.com/pm", "hi", "hi", .markdown, 5, "postgres", [104, 105], "hi", none, 5⟩

def extractJob (id sourceId : Uuid) (now : Time) : Job := newJob id sourceId .extract (some 3) now

def doneIngest (id sourceId : Uuid) (created now : Time) : Job :=
  ((newJob id sourceId .ingest none created).claimed now).succeed now

def ingested : Database :=
  { registered with
    documents := [pageDocument]
    jobs := [doneIngest 2 1 0 5, extractJob 22 1 5] }

def sampleExtraction (runId : String) (id : Uuid) (now : Time) : Extraction :=
  completeExtraction id now (processClient runId) 3 (.obj (sparseRecord "Org"))
    (.obj (recordFields.map fun field => (field, .num 1)))
    [attemptOf 1 sampleMessage.toResponse (.ok sampleOutput)]

def extracted : Database :=
  { ingested with
    jobs := [doneIngest 2 1 0 5, ((extractJob 22 1 5).claimed 6).succeed 6]
    extractions := [sampleExtraction "run a" 30 6]
    fieldReviews := fieldReviewRows (fun n => 100 * 30 + n) 30 6 (.obj (sparseRecord "Org"))
      (.obj (recordFields.map fun field => (field, .num 1))) }

def registeredAgain : Database :=
  { extracted with
    sources := extracted.sources ++ [⟨11, "https://example.com/pm", 7⟩]
    jobs := extracted.jobs ++ [newJob 12 11 .ingest none 7] }

def ingestedAgain : Database :=
  { registeredAgain with
    jobs := extracted.jobs ++ [doneIngest 12 11 7 8, extractJob 42 11 8] }

/-- The stage of an ingest of the page. -/
theorem processJob_page {cfg : Settings} {runId : String} {now : Time} {id : Uuid} {job : Job}
    (kind : job.kind = .ingest) {context : Context} {d d' : Database} {result : Except Exc Unit}
    (stores : (((Prog.execute (select [] fun d => d.sources.find? (·.id = job.sourceId))).bind
      fun source => match source with
        | none => .raise ⟨.noResultFound, "No row was found when one was required", []⟩
        | some _ => (storeParsed smallIngest now job.sourceId ⟨"https://example.com/pm",
            some "text/markdown", [104, 105]⟩ .markdown ⟨none, "hi"⟩).bind fun page =>
              (enqueue (id + 2) now job.sourceId .extract (some page.documentId)).bind fun _ =>
                .ret (.ok ()) : Db Unit)).serial postgres context ⟨d, false⟩ =
      (result, ⟨d', false⟩)) :
    (processJob cfg (processEnv runId now id) job).serial postgres context ⟨d, false⟩ =
      (result, ⟨d', false⟩) := by
  rw [← stores]
  rw [processJob]
  rw [kind]
  show Prog.serial _ _ (processIngest (processEnv runId now id) job) _ = _
  rw [processIngest]
  simp only [show (processEnv runId now id).ingest = smallIngest from rfl, ingestSource_small]
  rfl

section Alone

variable {allowed : Settings → JobEnv → Prop} {d d' : Database}

abbrev workerPass (env : JobEnv) : Db Reply :=
  (runOnce cappedSettings env).bind fun claimed => .ret (.ok (.worked claimed))

theorem ingested_alone : (workerPass (processEnv "run a" 5 20)).serial postgres ⟨registered, []⟩
    ⟨registered, false⟩ = (.ok (.worked true), ⟨ingested, false⟩) :=
  @runOnce_alone _ _ _ _ { ingested with jobs := [(newJob 2 1 .ingest none 0).claimed 5,
    extractJob 22 1 5] } _ (newJob 2 1 .ingest none 0) (.ok ()) (by decide) (by decide) rfl
      (processJob_page rfl rfl) rfl

theorem extracted_alone : (workerPass (processEnv "run a" 6 30)).serial postgres ⟨ingested, []⟩
    ⟨ingested, false⟩ = (.ok (.worked true), ⟨extracted, false⟩) :=
  @runOnce_alone _ _ _ _ _ _ (extractJob 22 1 5) (.ok ()) (by decide) (by decide) rfl rfl rfl

theorem ingestedAgain_alone : (workerPass (processEnv "run a" 8 40)).serial postgres
    ⟨registeredAgain, []⟩ ⟨registeredAgain, false⟩ =
      (.ok (.worked true), ⟨ingestedAgain, false⟩) :=
  @runOnce_alone _ _ _ _ { ingestedAgain with jobs := extracted.jobs ++
    [(newJob 12 11 .ingest none 7).claimed 8, extractJob 42 11 8] } _ (newJob 12 11 .ingest none 7)
      (.ok ()) (by decide) (by decide) rfl (processJob_page rfl rfl) rfl

theorem ingested_reachable (ingests : allowed cappedSettings (processEnv "run a" 5 20)) :
    Reachable (workerSystem 3 allowed) Database.empty ⟨ingested, []⟩ :=
  Reachable.transact (registered_reachable allowed) (.run rfl ingests) (by simp [workerSystem])
    ingested_alone

theorem extracted_reachable_of (ingests : allowed cappedSettings (processEnv "run a" 5 20))
    (extracts : allowed cappedSettings (processEnv "run a" 6 30)) :
    Reachable (workerSystem 3 allowed) Database.empty ⟨extracted, []⟩ :=
  Reachable.transact (ingested_reachable ingests) (.run rfl extracts) (by simp [workerSystem])
    extracted_alone

theorem extracted_reachable :
    Reachable (workerSystem 3 (Configured configuration)) Database.empty ⟨extracted, []⟩ :=
  extracted_reachable_of (processEnv_configured "run a" 5 20) (processEnv_configured "run a" 6 30)

/-- The page is registered once more. -/
theorem ingestedAgain_later : ∃ labels, Run (workerSystem 3 (Configured configuration))
    ⟨extracted, []⟩ labels ⟨ingestedAgain, []⟩ := by
  have alone : ∀ d, (workerSystem 3 (Configured configuration)).context [] ⟨d, []⟩ := by
    simp [workerSystem]
  have here : Reachable (workerSystem 3 (Configured configuration)) extracted ⟨extracted, []⟩ :=
    ⟨[], .refl⟩
  have registers : Reachable (workerSystem 3 (Configured configuration)) extracted
      ⟨registeredAgain, []⟩ :=
    here.transact (.register ⟨7, 11, 12⟩ "https://example.com/pm") (alone extracted) rfl
  exact Reachable.transact registers (.run rfl (processEnv_configured "run a" 8 40))
    (alone registeredAgain) ingestedAgain_alone

end Alone

/-- Nothing happens during the pass of the second extract job. -/
def afterwards (_ : Nat) : Moment Context Database Exc :=
  ⟨ingestedAgain, ⟨ingestedAgain, []⟩, none⟩

theorem claimRun_afterwards (runId : String) :
    claimRun cappedSettings (processEnv runId 9 50) afterwards =
      ⟨.ok (some ((extractJob 42 11 8).claimed 9)), ⟨claimLog (extractJob 42 11 8) 9, false⟩,
        afterwards⟩ :=
  claimRun_single rfl (show ingestedAgain.jobs.filter (claimable 9 60) = [extractJob 42 11 8]
    by decide) (show ingestedAgain.jobs.find? (fun j => j.id = 42 && claimable 9 60 j) =
      some (extractJob 42 11 8) by decide) rfl

/-- The process that has extracted the page does not call the model again. -/
theorem known_document_silent_same_run :
    (stageRun cappedSettings (processEnv "run a" 9 50) afterwards (extractJob 42 11 8)).session.log =
      claimLog (extractJob 42 11 8) 9 := by
  obtain ⟨labels, run⟩ := ingestedAgain_later
  have claims : (claimRun cappedSettings (processEnv "run a" 9 50) afterwards).session =
      ⟨claimLog (extractJob 42 11 8) 9, false⟩ := by rw [claimRun_afterwards]
  have complete :
      (sampleExtraction "run a" 30 6).isCompleteFor (processClient "run a") 3 = true := by
    decide
  exact (known_document_silent (w := ⟨extracted, []⟩) (List.mem_singleton_self _) complete
    (fun _ => ⟨labels, _, run, rfl⟩) claims rfl rfl rfl).2

/-- Another process of the same configuration calls it, and stores a second complete row. -/
theorem known_document_extracted_again :
    Reachable (workerSystem 3 (Configured configuration)) Database.empty ⟨extracted, []⟩ ∧
    (∃ labels, Run (workerSystem 3 (Configured configuration)) ⟨extracted, []⟩ labels
      ⟨ingestedAgain, []⟩) ∧
    (∃ x ∈ extracted.extractions, x.isCompleteFor (processClient "run a") 3 = true) ∧
    Configured configuration cappedSettings (processEnv "run b" 9 50) ∧
    (claimRun cappedSettings (processEnv "run b" 9 50) afterwards).result =
      .ok (some ((extractJob 42 11 8).claimed 9)) ∧
    ∃ x : Extraction, RowOp.insertExtraction x ∈ (stageRun cappedSettings (processEnv "run b" 9 50)
      afterwards (extractJob 42 11 8)).session.log ∧ x.documentId = 3 ∧
        x.attemptLog.map Attempt.rawOutput = ["sample"] := by
  refine ⟨extracted_reachable, ingestedAgain_later, ⟨_, List.mem_singleton_self _, by decide⟩,
    processEnv_configured "run b" 9 50, by rw [claimRun_afterwards],
    sampleExtraction "run b" 50 9, ?_, rfl, by decide⟩
  rw [stageRun, claimRun_afterwards]
  have log : ((processJob cappedSettings (processEnv "run b" 9 50)
      ((extractJob 42 11 8).claimed (processEnv "run b" 9 50).now)).run postgres afterwards
        ⟨claimLog (extractJob 42 11 8) 9, false⟩).session.log =
      claimLog (extractJob 42 11 8) 9 ++ .insertExtraction (sampleExtraction "run b" 50 9) ::
        (fieldReviewRows (fun n => 100 * 50 + n) 50 9 (.obj (sparseRecord "Org"))
          (.obj (recordFields.map fun field => (field, .num 1)))).map .insertFieldReview := rfl
  rw [log]
  exact List.mem_append_right _ List.mem_cons_self

end IncidentPipeline
