import IncidentPipeline.Extract.Client
import IncidentPipeline.Worker.RunOnce

/-!
# The record of failures

An extraction that fails leaves a failed row, which commits with the job. The row is
written inside `extract_document` for what the loop raises; what is raised before, by
the construction of the client above all, reaches the job only.
-/

namespace IncidentPipeline

open Python Tables Transactions

/-! ### Parts that raise nothing -/

/-- With the budgets that the settings allow, a routing pass raises nothing of its own. -/
theorem routePending_silent {collation : Collation} {now : Time} {floor : ℚ}
    {budget : Option Nat} :
    (routePending collation now floor (budget.map Int.ofNat)).Raises fun _ => False := by
  rw [routePending]
  split
  · next negative =>
      cases budget with
      | none => cases negative
      | some n =>
          have sign : Int.ofNat n < 0 := by simpa using negative
          exact absurd sign (Int.not_lt.mpr (Int.natCast_nonneg n))
  · refine Prog.raises_execute (fun _ refused => by cases refused) fun _ _ => ?_
    refine Prog.raises_execute (fun _ refused => by cases refused) fun _ _ => ?_
    refine Prog.raises_execute (fun _ refused => by cases refused) fun _ _ => ?_
    show Prog.Raises _ (if _ then _ else _)
    split
    · exact Prog.raises_ok
    · exact Prog.raises_execute (fun _ refused => by cases refused) fun _ _ => Prog.raises_ok

theorem createFieldReviews_silent {ids : Nat → Uuid} {now : Time} {extractionId : Uuid}
    {record confidence : Json} :
    (createFieldReviews ids now extractionId record confidence).Raises fun _ => False := by
  refine Prog.raises_execute (fun e refused => ?_) fun _ _ => Prog.raises_ok
  have sent := @reviewFields_taken ids extractionId now record confidence
  cases sent.symm.trans refused

/-! ### The failed row of an extraction -/

section Document

variable {rt : Runtime} {ids : ExtractIds} {now : Time} {client : LLMClient} {maxAttempts : Nat}
  {documentId : Uuid} {schedule : Nat → Moment Context Database Exc} {session : Session RowOp}

/-- A failure of the extraction can be stored: the texts that name the configuration can,
the document is there, and so is what the loop raises. -/
def Storable (rt : Runtime) (client : LLMClient) (maxAttempts : Nat) (documentId : Uuid)
    (documents : List Document) : Prop :=
  refusedText (identityTexts client) = none ∧
    ∃ doc, documents.find? (·.id = documentId) = some doc ∧
      ∀ e, extract rt client maxAttempts doc.text doc.title doc.sourceUrl = .error e →
        hasNul (errorText e) = false

/-- The error is the only text of a failed row that does not name the configuration. -/
theorem insertFailed_refused (texts : refusedText (identityTexts client) = none) (id : Uuid)
    (e : Exc) (kind : ErrorKind) (attempts : List Attempt) :
    (insertExtractionSql (failedExtraction id now client documentId e kind attempts)).refused =
      none ↔ hasNul (errorText e) = false := by
  have named := refusedText_eq_none.mp texts
  show refusedText (identityTexts client ++ [errorText e]) = none ↔ _
  rw [refusedText_eq_none, List.forall_mem_append, List.forall_mem_singleton]
  exact ⟨And.right, fun stored => ⟨named, stored⟩⟩

theorem extractStored_failed {doc : Document} {e : Exc}
    (texts : refusedText (identityTexts client) = none)
    (failed : ((extractStored rt ids now client maxAttempts documentId doc).run postgres schedule
      session).result = .error e)
    (alive : ((extractStored rt ids now client maxAttempts documentId doc).run postgres schedule
      session).session.aborted = false) :
    (extract rt client maxAttempts doc.text doc.title doc.sourceUrl = .error e ∧
      hasNul (errorText e) = false ∧
        ((extractStored rt ids now client maxAttempts documentId doc).run postgres schedule
          session).session.log = session.log ++ [.insertExtraction
            (failedExtraction ids.failed now client documentId e (failureOf e).1 (failureOf e).2)]) ∨
    (∃ x, extract rt client maxAttempts doc.text doc.title doc.sourceUrl = .error x ∧
      hasNul (errorText x) = true ∧
        ((extractStored rt ids now client maxAttempts documentId doc).run postgres schedule
          session).session.log = session.log) := by
  unfold extractStored at failed alive ⊢
  cases outcome : extract rt client maxAttempts doc.text doc.title doc.sourceUrl with
  | error x =>
      rw [outcome] at failed alive
      dsimp only at failed alive ⊢
      obtain ⟨y, refused, run⟩ | ⟨sent, _, _, ops, _, answer, run⟩ :=
        Prog.run_execute_bind_alive alive
      · refine .inr ⟨x, rfl, ?_, by rw [run]⟩
        rw [← Bool.not_eq_false, ← insertFailed_refused texts, refused]
        simp
      · rw [run] at failed ⊢
        cases failed
        have stored := (insertFailed_refused texts _ _ _ _).mp sent
        refine .inl ⟨rfl, stored, ?_⟩
        simp only [insertExtractionSql] at answer
        split at answer
        · cases answer
        · cases answer
          rfl
  | ok result =>
      rw [outcome] at failed alive
      dsimp only at failed alive
      -- with the texts taken, whatever fails after the loop aborts the transaction
      refine ((Prog.raises_execute (P := fun _ => False) (fun y refused => ?_) fun _ _ =>
        Prog.raises_bind createFieldReviews_silent fun _ => Prog.raises_ok).run alive failed).elim
      have sent : (refusedText (identityTexts client ++ []) : Option Exc) = none := by
        rw [List.append_nil, texts]
      cases sent.symm.trans refused

/-- An extraction that fails in a transaction that stays alive has written its failed row
if that is possible, and nothing otherwise. -/
theorem extractDocument_failed {e : Exc}
    (sees : ∀ visible, postgres.replay session.log (schedule 1).committed = .ok visible →
      visible.documents = (schedule 1).committed.documents)
    (failed : ((extractDocument rt ids now client maxAttempts documentId).run postgres schedule
      session).result = .error e)
    (alive : ((extractDocument rt ids now client maxAttempts documentId).run postgres schedule
      session).session.aborted = false) :
    (Storable rt client maxAttempts documentId (schedule 1).committed.documents ∧
      ((extractDocument rt ids now client maxAttempts documentId).run postgres schedule
        session).session.log = session.log ++ [.insertExtraction
          (failedExtraction ids.failed now client documentId e (failureOf e).1 (failureOf e).2)]) ∨
    (¬ Storable rt client maxAttempts documentId (schedule 1).committed.documents ∧
      ((extractDocument rt ids now client maxAttempts documentId).run postgres schedule
        session).session.log = session.log) := by
  rw [extractDocument_eq] at failed alive ⊢
  obtain ⟨x, refused, run⟩ | ⟨texts, _, _, run⟩ := run_select_bind_alive alive
  · rw [run]
    refine .inr ⟨fun storable => ?_, rfl⟩
    cases storable.1.symm.trans refused
  rw [run] at failed alive ⊢
  generalize List.find? _ _ = existing at failed alive ⊢
  cases existing with
  | some row => cases failed
  | none =>
      dsimp only [Option.elim] at failed alive ⊢
      obtain ⟨x, refused, _⟩ | ⟨_, visible, seen, run⟩ := run_select_bind_alive alive
      · cases refused
      rw [run, sees visible seen] at failed alive ⊢
      cases found : (schedule 1).committed.documents.find? (·.id = documentId) with
      | none =>
          refine .inr ⟨fun storable => ?_, rfl⟩
          obtain ⟨_, doc, there, _⟩ := storable
          cases found.symm.trans there
      | some doc =>
          rw [found] at failed alive
          dsimp only [Option.elim] at failed alive ⊢
          obtain ⟨outcome, stored, log⟩ | ⟨x, outcome, refused, log⟩ :=
            extractStored_failed texts failed alive
          · refine .inl ⟨⟨texts, doc, found, fun x raised => ?_⟩, log⟩
            cases outcome.symm.trans raised
            exact stored
          · refine .inr ⟨fun storable => ?_, log⟩
            obtain ⟨_, doc', there, stored⟩ := storable
            cases found.symm.trans there
            rw [stored x outcome] at refused
            cases refused

end Document

/-! ### The failed row of a stage -/

section Stage

variable {cfg : Settings} {env : JobEnv} {job : Job} {e : Exc}
  {schedule : Nat → Moment Context Database Exc} {session : Session RowOp}

/-- The client can be built, and a failure of the extraction can be stored. -/
def Audited (cfg : Settings) (env : JobEnv) (job : Job) (documents : List Document) : Prop :=
  ∃ documentId client, job.documentId = some documentId ∧ env.client = .ok client ∧
    Storable env.rt client cfg.extractionMaxAttempts documentId documents

/-- A failed row for the job's document that carries the error. -/
structure Extraction.Audits (x : Extraction) (job : Job) (e : Exc) : Prop where
  status : x.status = .failed
  document : some x.documentId = job.documentId
  error : x.error = some (errorText e)

theorem processExtract_failed
    (sees : ∀ visible, postgres.replay session.log (schedule 1).committed = .ok visible →
      visible.documents = (schedule 1).committed.documents)
    (failed : ((processExtract cfg env job).run postgres schedule session).result = .error e)
    (alive : ((processExtract cfg env job).run postgres schedule session).session.aborted = false) :
    (Audited cfg env job (schedule 1).committed.documents ∧ ∃ x : Extraction, x.Audits job e ∧
      ((processExtract cfg env job).run postgres schedule session).session.log =
        session.log ++ [.insertExtraction x]) ∨
    (¬ Audited cfg env job (schedule 1).committed.documents ∧
      ((processExtract cfg env job).run postgres schedule session).session.log = session.log) := by
  unfold processExtract at failed alive ⊢
  cases document : job.documentId with
  | none =>
      refine .inr ⟨fun audited => ?_, rfl⟩
      obtain ⟨_, _, there, _⟩ := audited
      cases document.symm.trans there
  | some documentId =>
      rw [document] at failed alive
      dsimp only at failed alive ⊢
      cases built : env.client with
      | error x =>
          refine .inr ⟨fun audited => ?_, rfl⟩
          obtain ⟨_, _, _, client, _⟩ := audited
          cases built.symm.trans client
      | ok client =>
          rw [built] at failed alive
          change (Prog.run postgres ((extractDocument env.rt env.ids env.now client
            cfg.extractionMaxAttempts documentId).bind _) schedule session).result = _ at failed
          change (Prog.run postgres ((extractDocument env.rt env.ids env.now client
            cfg.extractionMaxAttempts documentId).bind _) schedule session).session.aborted = _
            at alive
          show (_ ∧ ∃ x : Extraction, _ ∧ (Prog.run postgres ((extractDocument env.rt env.ids
            env.now client cfg.extractionMaxAttempts documentId).bind _) schedule
              session).session.log = _) ∨ _ ∧ (Prog.run postgres ((extractDocument env.rt env.ids
                env.now client cfg.extractionMaxAttempts documentId).bind _) schedule
                  session).session.log = _
          rw [Prog.run_bind] at failed alive ⊢
          cases outcome : ((extractDocument env.rt env.ids env.now client cfg.extractionMaxAttempts
              documentId).run postgres schedule session).result with
          | ok extracted =>
              rw [outcome] at failed alive
              refine absurd failed fun failed => ?_
              refine Prog.Raises.run (P := fun _ => False) ?_ alive failed
              split
              · exact Prog.raises_ok
              · exact Prog.raises_bind routePending_silent fun _ => Prog.raises_ok
          | error x =>
              rw [outcome] at failed alive
              cases failed
              obtain ⟨storable, log⟩ | ⟨storable, log⟩ := extractDocument_failed sees outcome alive
              · exact .inl ⟨⟨documentId, client, document, built, storable⟩, _,
                  ⟨rfl, document.symm, rfl⟩, log⟩
              · refine .inr ⟨fun audited => storable ?_, log⟩
                obtain ⟨_, _, here, client, stored⟩ := audited
                cases document.symm.trans here
                cases built.symm.trans client
                exact stored

end Stage

/-! ### The failed row of a pass -/

/-- The extraction that an operation inserts. -/
def insertedExtraction : RowOp → Option Extraction
  | .insertExtraction x => some x
  | _ => none

/-- No statement changes or deletes an extraction. -/
theorem replay_extractions {ops : List RowOp} {d d' : Database}
    (h : postgres.replay ops d = .ok d') :
    d'.extractions = d.extractions ++ ops.filterMap insertedExtraction := by
  induction ops generalizing d with
  | nil =>
      rw [Server.replay_nil, Except.ok.injEq] at h
      simp [h]
  | cons o rest ih =>
      obtain ⟨middle, first, later⟩ := Server.replay_cons_ok.mp h
      obtain ⟨_, rfl⟩ := RowOp.apply_eq_ok.mp first
      rw [ih later, List.filterMap_cons]
      cases o <;> simp [insertedExtraction, RowOp.write]

/-- The failed rows for the document of a job. -/
def failedRows (job : Job) (d : Database) : List Extraction :=
  d.extractions.filter fun x => some x.documentId = job.documentId && x.status = .failed

section Pass

variable {cfg : Settings} {env : JobEnv} {job : Job} {d : Database}
  {schedule : Nat → Moment Context Database Exc}

/-- The stage of a pass that commits the job as failed has raised: the mark of a success would
be on the row. -/
theorem stageRun_raised
    (claims : (claimRun cfg env schedule).session = ⟨claimLog job env.now, false⟩)
    (quiet : ∀ n, Undisturbed job (stageRun cfg env schedule job).session.log
      ((stageRun cfg env schedule job).rest n))
    (commits : ((runOnce cfg env).run postgres schedule .fresh).leave postgres = (.ok true, d))
    {row : Job} (member : row ∈ d.jobs) (mine : row.id = job.id)
    (failed : row.status = .queued ∨ row.status = .deadLetter) :
    ∃ e, (stageRun cfg env schedule job).result = .error e := by
  obtain ⟨alive, taken⟩ := stageRun_of_returned claims (Prog.Outcome.result_of_leave commits)
  obtain ⟨k, marked⟩ := runOnce_marked claims quiet alive taken
  obtain ⟨ops, log, keeps⟩ := stageRun_log claims
  rw [log] at quiet marked
  obtain ⟨d', row', left, one, _, status⟩ := recorded_of_marked (k := k) keeps quiet
  rw [← marked, commits] at left
  cases left
  cases result : (stageRun cfg env schedule job).result with
  | error e => exact ⟨e, rfl⟩
  | ok u =>
      rw [result] at status
      have there : row ∈ d.jobs.filter (·.id = job.id) := by simp [member, mine]
      rw [one, List.mem_singleton] at there
      rw [there, status] at failed
      simp at failed

theorem stageRun_extract (kind : job.kind = .extract) : stageRun cfg env schedule job =
    (processExtract cfg env (job.claimed env.now)).run postgres (claimRun cfg env schedule).rest
      (claimRun cfg env schedule).session := by
  have program : processJob cfg env (job.claimed env.now) =
      processExtract cfg env (job.claimed env.now) := by
    rw [processJob]
    rw [show (job.claimed env.now).kind = .extract from kind]
  rw [stageRun, program]

/-- A pass that commits an extract job as failed commits exactly one failed row with the
error along with it, if the client can be built and the failure can be stored, and no
row at all otherwise. -/
theorem failure_audited_iff
    (claims : (claimRun cfg env schedule).session = ⟨claimLog job env.now, false⟩)
    (kind : job.kind = .extract)
    (quiet : ∀ n, Undisturbed job (stageRun cfg env schedule job).session.log
      ((stageRun cfg env schedule job).rest n))
    (commits : ((runOnce cfg env).run postgres schedule .fresh).leave postgres = (.ok true, d))
    {row : Job} (member : row ∈ d.jobs) (mine : row.id = job.id)
    (failed : row.status = .queued ∨ row.status = .deadLetter) :
    (∃ e x, (stageRun cfg env schedule job).result = .error e ∧ x.Audits job e ∧
        failedRows job d =
          failedRows job (((runOnce cfg env).run postgres schedule .fresh).rest 0).committed ++ [x]) ↔
      Audited cfg env job ((claimRun cfg env schedule).rest 1).committed.documents := by
  obtain ⟨alive, taken⟩ := stageRun_of_returned claims (Prog.Outcome.result_of_leave commits)
  obtain ⟨k, marked⟩ := runOnce_marked claims quiet alive taken
  obtain ⟨e, raised⟩ := stageRun_raised claims quiet commits member mine failed
  have stage := @stageRun_extract cfg env job schedule kind
  have sees : ∀ visible, postgres.replay (claimRun cfg env schedule).session.log
      ((claimRun cfg env schedule).rest 1).committed = .ok visible →
      visible.documents = ((claimRun cfg env schedule).rest 1).committed.documents := by
    intro visible seen
    rw [claims] at seen
    rw [(replay_singleton.mp seen).2]
    rfl
  have before : ((claimRun cfg env schedule).session.log).filterMap insertedExtraction = [] := by
    rw [claims]
    rfl
  have written := replay_extractions (Prog.Outcome.replay_of_leave commits (by rw [marked]))
  have log : (((runOnce cfg env).run postgres schedule .fresh).session.log).filterMap
      insertedExtraction =
        ((stageRun cfg env schedule job).session.log).filterMap insertedExtraction := by
    rw [marked]
    exact (List.filterMap_append ..).trans (List.append_nil _)
  rw [log, stage] at written
  rw [stage] at raised alive
  obtain ⟨audited, x, audits, inserted⟩ | ⟨audited, nothing⟩ :=
    processExtract_failed sees raised alive
  · rw [inserted, List.filterMap_append, before, List.nil_append] at written
    have document : some x.documentId = job.documentId := audits.document
    refine iff_of_true ⟨e, x, stage ▸ raised, ⟨audits.status, document, audits.error⟩, ?_⟩ audited
    have counts : (decide (some x.documentId = job.documentId) && x.status = .failed) = true := by
      simp [document, audits.status]
    rw [failedRows, written, List.filter_append]
    exact congrArg _ (List.filter_cons_of_pos counts)
  · rw [nothing, before, List.append_nil] at written
    refine iff_of_false ?_ audited
    rintro ⟨_, x, _, _, rows⟩
    rw [failedRows, written] at rows
    exact absurd (congrArg List.length rows) (by simp [failedRows])

end Pass

/-! A database with one document that waits to be extracted, by a client whose model
refuses and by one that is not configured. -/

def waitingJob : Job := newJob 2 5 .extract (some 1) 0

def waiting : Database :=
  { Database.empty with
    sources := [⟨5, "status", 0⟩]
    documents := [storedDocument]
    jobs := [waitingJob] }

def alone (_ : Nat) : Moment Context Database Exc := ⟨waiting, ⟨waiting, []⟩, none⟩

def extractEnv (client : Except Exc LLMClient) : JobEnv := { smallEnv with client := client }

theorem claimRun_waiting (env : JobEnv) :
    claimRun smallSettings env alone =
      ⟨.ok (some (waitingJob.claimed env.now)), ⟨claimLog waitingJob env.now, false⟩, alone⟩ := by
  have ready : claimable env.now 60 waitingJob = true := by simp [claimable, waitingJob, newJob]
  have candidates : waiting.jobs.filter (claimable env.now 60) = [waitingJob] :=
    List.filter_cons_of_pos ready
  have found : waiting.jobs.find? (fun j => j.id = waitingJob.id && claimable env.now 60 j) =
      some waitingJob := List.find?_cons_of_pos (by simp [ready])
  exact claimRun_single rfl candidates found rfl

theorem stageRun_waiting (env : JobEnv) :
    stageRun smallSettings env alone waitingJob =
      (processExtract smallSettings env (waitingJob.claimed env.now)).run postgres alone
        ⟨claimLog waitingJob env.now, false⟩ := by
  rw [stageRun, claimRun_waiting]
  rfl

section Raised

variable {env : JobEnv} {e : Exc} {log : List RowOp} {d : Database}

/-- A pass whose stage has raised. -/
theorem runOnce_raised_waiting
    (stage : stageRun smallSettings env alone waitingJob = ⟨.error e, ⟨log, false⟩, alone⟩)
    (taken : hasNul e.message = false)
    (marked : postgres.replay (log ++ [.updateJob (waitingJob.claimed env.now)
      ((waitingJob.claimed env.now).ended 3 env.now (.error e))]) waiting = .ok d) :
    (∀ n, Undisturbed waitingJob (stageRun smallSettings env alone waitingJob).session.log
      ((stageRun smallSettings env alone waitingJob).rest n)) ∧
    (runOnce smallSettings env).run postgres alone .fresh =
      ⟨.ok true, ⟨log ++ [.updateJob (waitingJob.claimed env.now)
        ((waitingJob.claimed env.now).ended 3 env.now (.error e))], false⟩, alone⟩ := by
  have quiet : ∀ n, Undisturbed waitingJob
      (stageRun smallSettings env alone waitingJob).session.log
      ((stageRun smallSettings env alone waitingJob).rest n) := by
    rw [stage]
    obtain ⟨visible, seen, _⟩ := Server.replay_append_ok.mp marked
    exact fun n => ⟨rfl, List.mem_singleton_self _, List.nodup_singleton _, visible, seen⟩
  have claims : (claimRun smallSettings env alone).session =
      ⟨claimLog waitingJob env.now, false⟩ := by rw [claimRun_waiting]
  obtain ⟨k, run⟩ := runOnce_marked claims quiet (by rw [stage]) (by
    intro x failed
    rw [stage] at failed
    cases failed
    exact taken)
  refine ⟨quiet, ?_⟩
  rw [run, stage]
  rfl

/-- It commits what the stage and the mark have written. -/
theorem runOnce_waiting
    (stage : stageRun smallSettings env alone waitingJob = ⟨.error e, ⟨log, false⟩, alone⟩)
    (taken : hasNul e.message = false)
    (marked : postgres.replay (log ++ [.updateJob (waitingJob.claimed env.now)
      ((waitingJob.claimed env.now).ended 3 env.now (.error e))]) waiting = .ok d) :
    (∀ n, Undisturbed waitingJob (stageRun smallSettings env alone waitingJob).session.log
      ((stageRun smallSettings env alone waitingJob).rest n)) ∧
    ((runOnce smallSettings env).run postgres alone .fresh).leave postgres = (.ok true, d) ∧
    (((runOnce smallSettings env).run postgres alone .fresh).rest 0).committed = waiting := by
  obtain ⟨quiet, run⟩ := runOnce_raised_waiting stage taken marked
  rw [run]
  exact ⟨quiet, Prog.Outcome.leave_of_replay rfl rfl marked, rfl⟩

end Raised

def refusedRow : Extraction :=
  failedExtraction 6 5 refusingClient 1
    ⟨.permanentExtractionError, "model refused (category=None)", []⟩ .permanent []

theorem stageRun_refused :
    stageRun smallSettings (extractEnv (.ok refusingClient)) alone waitingJob =
      ⟨.error ⟨.permanentExtractionError, "model refused (category=None)", []⟩,
        ⟨claimLog waitingJob 5 ++ [.insertExtraction refusedRow], false⟩, alone⟩ := by
  rw [stageRun_waiting]
  rfl

/-- The model refuses, and the failed row is there. -/
theorem failure_audited_refusal : ∃ d,
    ((runOnce smallSettings (extractEnv (.ok refusingClient))).run postgres alone .fresh).leave
      postgres = (.ok true, d) ∧ ∃ x, failedRows waitingJob d = [x] := by
  obtain ⟨quiet, commits, before⟩ := runOnce_waiting stageRun_refused (by decide) rfl
  have audited : Audited smallSettings (extractEnv (.ok refusingClient)) waitingJob
      waiting.documents := by
    refine ⟨1, refusingClient, rfl, rfl, by decide, storedDocument, rfl, ?_⟩
    intro e raised
    cases raised
    decide
  obtain ⟨_, x, _, _, rows⟩ := (failure_audited_iff (by rw [claimRun_waiting]) rfl quiet
    commits (List.mem_singleton_self _) rfl (.inr rfl)).mpr (by
      rw [claimRun_waiting]
      exact audited)
  rw [before] at rows
  exact ⟨_, commits, x, rows⟩

/-- The provider is not set: the job is dead, and no row says why. -/
theorem failure_unaudited_unconfigured : ∃ d,
    ((runOnce smallSettings (extractEnv (buildLlmClient .ascii (.error "") ""
      ⟨none, none, none, none⟩))).run postgres alone .fresh).leave postgres = (.ok true, d) ∧
    d.jobs.map Job.status = [.deadLetter] ∧ failedRows waitingJob d = [] := by
  have stage : stageRun smallSettings (extractEnv (buildLlmClient .ascii (.error "") ""
      ⟨none, none, none, none⟩)) alone waitingJob =
        ⟨.error (configurationError "APP_LLM_PROVIDER is not set (supported: anthropic)"),
          ⟨claimLog waitingJob 5, false⟩, alone⟩ := by
    rw [stageRun_waiting]
    rfl
  exact ⟨_, (runOnce_waiting stage (by decide) rfl).2.1, by decide, rfl⟩

end IncidentPipeline
