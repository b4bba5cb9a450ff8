import IncidentPipeline.Extract.Billing
import IncidentPipeline.Worker.Interleavings

/-!
# The end of a pass

`run_once` marks its job in the transaction that the stage has used. If the server has
answered a statement of the stage with an error, the transaction is aborted, so the mark
fails as well, the exception leaves `run_once`, and the attempt is rolled back with
everything else. The same happens if the text of the failure holds a NUL, which the
driver does not take.
-/

namespace IncidentPipeline

open Python Tables Transactions

/-! ### What a stage writes -/

section Writes

variable {P : RowOp → Prop}

theorem ingestSource_writes {env : IngestEnv} {now : Time} {sourceId : Uuid} {url : String}
    (inserts : ∀ row, P (.insertDocument row))
    (updates : ∀ before after, P (.updateDocument before after)) :
    (ingestSource env now sourceId url).Writes P := by
  rw [ingestSource]
  simp only [Prog.bind_eq, Prog.ofExcept]
  refine Prog.writes_bind trivial fun fetched => Prog.writes_bind writes_select fun sameBytes => ?_
  cases sameBytes with
  | some document => exact trivial
  | none =>
      refine Prog.writes_bind trivial fun format => Prog.writes_bind trivial fun parsed =>
        Prog.writes_bind writes_select fun sameText => ?_
      cases sameText with
      | some document =>
          refine Prog.writes_bind (Prog.writes_execute ?_) fun _ => trivial
          intro context d reply ops answer o ho
          cases answer
          obtain ⟨row, _, rfl⟩ := List.mem_map.mp ho
          exact updates _ _
      | none =>
          refine Prog.writes_bind (Prog.writes_execute ?_) fun _ => trivial
          intro context d reply ops answer o ho
          cases answer
          obtain rfl := List.mem_singleton.mp ho
          exact inserts _

theorem enqueue_writes {jobId sourceId : Uuid} {now : Time} {kind : JobKind}
    {documentId : Option Uuid} (inserts : ∀ row, P (.insertJob row)) :
    (enqueue jobId now sourceId kind documentId).Writes P := by
  rw [enqueue]
  split
  · exact trivial
  · refine Prog.writes_bind (Prog.writes_execute ?_) fun _ => trivial
    intro context d reply ops answer o ho
    cases answer
    obtain rfl := List.mem_singleton.mp ho
    exact inserts _

theorem routePending_writes {collation : Collation} {now : Time} {floor : ℚ} {budget : Option Int}
    (updates : ∀ before after, P (.updateFieldReview before after)) :
    (routePending collation now floor budget).Writes P := by
  rw [routePending]
  split
  · exact trivial
  · refine Prog.writes_bind writes_select fun _ => Prog.writes_bind writes_select fun _ =>
      Prog.writes_bind writes_select fun _ => ?_
    show Prog.Writes _ (if _ then _ else _)
    split
    · exact trivial
    · refine Prog.writes_bind (Prog.writes_execute ?_) fun _ => trivial
      intro context d reply ops answer o ho
      cases answer
      obtain ⟨row, _, rfl⟩ := List.mem_map.mp ho
      exact updates _ _

/-- A stage writes documents, jobs and reviews, and what `extract_document` writes. -/
theorem processJob_writes {cfg : Settings} {env : JobEnv} {job : Job}
    (documents : ∀ row, P (.insertDocument row))
    (provenance : ∀ before after, P (.updateDocument before after))
    (jobs : ∀ row, P (.insertJob row))
    (routes : ∀ before after, P (.updateFieldReview before after))
    (extracts : ∀ client documentId, env.client = .ok client → (extractDocument env.rt env.ids
      env.now client cfg.extractionMaxAttempts documentId).Writes P) :
    (processJob cfg env job).Writes P := by
  rw [processJob]
  cases job.kind with
  | ingest =>
      refine Prog.writes_bind writes_select fun source => ?_
      cases source with
      | none => exact trivial
      | some row =>
          exact Prog.writes_bind (ingestSource_writes documents provenance) fun _ =>
            Prog.writes_bind (enqueue_writes jobs) fun _ => trivial
  | extract =>
      show Prog.Writes _ (processExtract cfg env job)
      rw [processExtract]
      cases job.documentId with
      | none => exact trivial
      | some documentId =>
          show Prog.Writes _ ((Prog.ofExcept env.client).bind _)
          cases built : env.client with
          | error e => exact trivial
          | ok client =>
              dsimp only [Prog.ofExcept, Prog.bind]
              refine Prog.writes_bind (extracts client documentId built) fun outcome => ?_
              split
              · exact trivial
              · exact Prog.writes_bind (routePending_writes routes) fun _ => trivial

theorem updateJob_writes {id : Uuid} {texts : List String} {set : Job → Job}
    (updates : ∀ before after, P (.updateJob before after)) :
    (Prog.execute (updateJobSql id texts set) : Db Unit).Writes P := by
  apply Prog.writes_execute
  intro context d reply ops answer o ho
  cases answer
  obtain ⟨row, _, rfl⟩ := List.mem_map.mp ho
  exact updates _ _

theorem finishJob_writes {cfg : Settings} {now : Time} {job : Job} {ended : Except Exc Unit}
    (updates : ∀ before after, P (.updateJob before after)) :
    (finishJob cfg now job ended).Writes P := by
  cases ended with
  | ok _ => exact Prog.writes_bind (updateJob_writes updates) fun _ => trivial
  | error e =>
      rw [finishJob]
      refine Prog.writes_bind ?_ fun _ => trivial
      rw [markFailed]
      split
      · exact updateJob_writes updates
      · exact Prog.writes_bind writes_select fun _ => updateJob_writes updates

/-- A pass writes what its stage writes, and updates of jobs. -/
theorem runOnce_writes {cfg : Settings} {env : JobEnv}
    (updates : ∀ before after, P (.updateJob before after))
    (stage : ∀ job, (processJob cfg env job).Writes P) : (runOnce cfg env).Writes P := by
  refine Prog.writes_bind (Prog.writes_execute ?_) fun claimed => ?_
  · intro context d reply ops answer o ho
    simp only [claimSql, sql] at answer
    split at answer
    · cases answer
      cases ho
    · cases answer
      obtain rfl := List.mem_singleton.mp ho
      exact updates _ _
  · cases claimed with
    | none => exact trivial
    | some job =>
        exact Prog.writes_bind (stage job).attempt fun ended => finishJob_writes updates

theorem registerSource_writes {env : RegisterEnv} {url : String}
    (sources : ∀ row, P (.insertSource row)) (jobs : ∀ row, P (.insertJob row)) :
    (registerSource env url).Writes P := by
  refine Prog.writes_bind (Prog.writes_execute ?_) fun _ =>
    Prog.writes_bind (enqueue_writes jobs) fun _ => trivial
  intro context d reply ops answer o ho
  cases answer
  exact List.mem_singleton.mp ho ▸ sources _

/-- What only says something of extractions holds of whatever the system writes, if it holds
of what `extract_document` writes. -/
theorem workerProgram_writes {maxAttempts : Nat} {allowed : Settings → JobEnv → Prop}
    {p : Db Reply} (program : WorkerProgram maxAttempts allowed p)
    (others : ∀ o, (∀ row, o ≠ .insertExtraction row) → P o)
    (extracts : ∀ cfg env client documentId, allowed cfg env → env.client = .ok client →
      (extractDocument env.rt env.ids env.now client cfg.extractionMaxAttempts
        documentId).Writes P) : p.Writes P := by
  cases program with
  | register env url =>
      exact Prog.writes_bind (registerSource_writes (fun _ => others _ nofun)
        fun _ => others _ nofun) fun _ => trivial
  | @run cfg env same meets =>
      refine Prog.writes_bind (runOnce_writes (fun _ _ => others _ nofun) fun job => ?_)
        fun _ => trivial
      exact processJob_writes (fun _ => others _ nofun) (fun _ _ => others _ nofun)
        (fun _ => others _ nofun) (fun _ _ => others _ nofun)
        fun client documentId built => extracts cfg env client documentId meets built

end Writes

/-- Not an update of a job. -/
def KeepsJobs (o : RowOp) : Prop := ∀ before after, o ≠ .updateJob before after

theorem extractDocument_keepsJobs {rt : Runtime} {ids : ExtractIds} {now : Time}
    {client : LLMClient} {attempts : Nat} {documentId : Uuid} :
    (extractDocument rt ids now client attempts documentId).Writes KeepsJobs := by
  refine (extractDocument_writes rt ids now client attempts documentId).mono ?_
  rintro o records before after rfl
  exact records

/-- No stage updates a job. -/
theorem processJob_keepsJobs {cfg : Settings} {env : JobEnv} {job : Job} :
    (processJob cfg env job).Writes KeepsJobs := by
  apply processJob_writes
  · exact fun _ _ _ h => by cases h
  · exact fun _ _ _ _ h => by cases h
  · exact fun _ _ _ h => by cases h
  · exact fun _ _ _ _ h => by cases h
  · exact fun _ _ _ => extractDocument_keepsJobs

/-! ### The job as the transaction sees it -/

section Seen

variable {job : Job} {claimedAt : Time} {ops : List RowOp} {d visible : Database}

/-- An operation of a stage leaves the version of a job that is there. -/
theorem KeepsJobs.filter_write {o : RowOp} {d' : Database} (keeps : KeepsJobs o)
    (written : postgres.apply o d = .ok d') {id : Uuid} (there : ∃ j ∈ d.jobs, j.id = id) :
    d'.jobs.filter (·.id = id) = d.jobs.filter (·.id = id) := by
  obtain ⟨checks, rfl⟩ := RowOp.apply_eq_ok.mp written
  cases o with
  | updateJob before after => exact absurd rfl (keeps before after)
  | insertJob row =>
      obtain ⟨j, member, rfl⟩ := there
      have other : row.id ≠ j.id := (Job.checks_ok checks j member).symm
      show (d.jobs ++ [row]).filter _ = _
      simp [List.filter_append, other]
  | _ => rfl

/-- A transaction sees its job in the version of the claim. -/
theorem seen_claimed (keeps : ∀ o ∈ ops, KeepsJobs o) (member : job ∈ d.jobs)
    (unique : Keyed Job.id d.jobs)
    (seen : postgres.replay (claimLog job claimedAt ++ ops) d = .ok visible) :
    visible.jobs.filter (·.id = job.id) = [job.claimed claimedAt] := by
  obtain ⟨d₁, claimed, staged⟩ := Server.replay_append_ok.mp seen
  obtain ⟨_, rfl⟩ := replay_singleton.mp claimed
  have there : job.claimed claimedAt ∈ replaceRow Job.id job.id (job.claimed claimedAt) d.jobs :=
    after_mem_replaceRow member rfl
  have one : (replaceRow Job.id job.id (job.claimed claimedAt) d.jobs).filter (·.id = job.id) =
      [job.claimed claimedAt] := (unique.replaceRow (job.claimed_id claimedAt)).filter_key there
  have start : ((RowOp.updateJob job (job.claimed claimedAt)).write d).jobs.filter
      (·.id = job.id) = [job.claimed claimedAt] := one
  clear claimed seen
  generalize (RowOp.updateJob job (job.claimed claimedAt)).write d = d₁ at staged start
  induction ops generalizing d₁ with
  | nil =>
      rw [Server.replay_nil, Except.ok.injEq] at staged
      exact staged ▸ start
  | cons o rest ih =>
      obtain ⟨d₂, first, later⟩ := Server.replay_cons_ok.mp staged
      refine ih (fun o ho => keeps o (List.mem_cons_of_mem _ ho)) d₂ later ?_
      rw [(keeps o List.mem_cons_self).filter_write first, start]
      have found : job.claimed claimedAt ∈ d₁.jobs.filter (·.id = job.id) := by simp [start]
      exact ⟨_, List.mem_of_mem_filter found, rfl⟩

/-- The mark goes through, and it is the version of the job that is left. -/
theorem mark_replay (keeps : ∀ o ∈ ops, KeepsJobs o) (member : job ∈ d.jobs)
    (unique : Keyed Job.id d.jobs)
    (seen : postgres.replay (claimLog job claimedAt ++ ops) d = .ok visible) {last : Job}
    (id : last.id = job.id) (kind : last.kind = job.kind)
    (document : last.documentId = job.documentId) :
    postgres.replay [.updateJob (job.claimed claimedAt) last] visible =
        .ok { visible with jobs := replaceRow Job.id job.id last visible.jobs } ∧
      (replaceRow Job.id job.id last visible.jobs).filter (·.id = job.id) = [last] := by
  have one := seen_claimed keeps member unique seen
  obtain ⟨d₁, claimed, _⟩ := Server.replay_append_ok.mp seen
  obtain ⟨checks, _⟩ := replay_singleton.mp claimed
  have shape : job.kind = .extract ↔ job.documentId.isSome = true := by
    have check := checks _ (List.mem_cons_of_mem _ List.mem_cons_self)
    exact of_decide_eq_true check
  refine ⟨replay_singleton.mpr ⟨?_, rfl⟩, ?_⟩
  · intro check hcheck
    obtain rfl | hcheck := List.mem_cons.mp hcheck
    · rw [List.all_eq_true]
      intro j hj
      rw [decide_eq_true_eq, id]
      exact (mem_otherRows.mp hj).2
    · obtain rfl := List.mem_singleton.mp hcheck
      rw [decide_eq_true_eq, kind, document]
      exact shape
  · have moved : (replaceRow Job.id job.id last visible.jobs).filter (·.id = job.id) =
        (visible.jobs.filter (·.id = job.id)).map fun _ => last := by
      rw [replaceRow, List.filter_map]
      have same : (fun j : Job => decide (j.id = job.id)) ∘
          (fun row => if row.id = job.id then last else row) = fun j => decide (j.id = job.id) := by
        funext j
        rw [Function.comp_apply]
        split
        · next h => simp [h, id]
        · rfl
      rw [same]
      refine List.map_congr_left fun j hj => ?_
      exact if_pos (of_decide_eq_true (List.mem_filter.mp hj).2)
    rw [moved, one]
    rfl

end Seen

/-! ### The mark -/

section Finish

variable {job : Job} {ops : List RowOp} {cfg : Settings} {now claimedAt : Time}
  {result : Except Exc Unit} {schedule : Nat → Moment Context Database Exc}

/-- The moment finds the lock on the claimed job in place and the writes of the
transaction applicable, and the server reports no error of its own. -/
structure Undisturbed (job : Job) (log : List RowOp) (m : Moment Context Database Exc) : Prop where
  answers : m.fault = none
  locked : job ∈ m.committed.jobs
  unique : Keyed Job.id m.committed.jobs
  applies : ∃ visible, postgres.replay log m.committed = .ok visible

/-- An undisturbed update of the claimed job. -/
theorem serve_updateJob {texts : List String} {set : Job → Job} {m : Moment Context Database Exc}
    (keeps : ∀ o ∈ ops, KeepsJobs o) (quiet : Undisturbed job (claimLog job claimedAt ++ ops) m)
    (taken : refusedText texts = none) (id : ∀ j, (set j).id = j.id)
    (kind : ∀ j, (set j).kind = j.kind) (document : ∀ j, (set j).documentId = j.documentId) :
    postgres.serve (updateJobSql job.id texts set) m ⟨claimLog job claimedAt ++ ops, false⟩ =
      (.ok (), ⟨claimLog job claimedAt ++ ops ++
        [.updateJob (job.claimed claimedAt) (set (job.claimed claimedAt))], false⟩) := by
  obtain ⟨answers, locked, unique, visible, seen⟩ := quiet
  have one := seen_claimed keeps locked unique seen
  have mark := (mark_replay keeps locked unique seen (id (job.claimed claimedAt))
    (kind (job.claimed claimedAt)) (document (job.claimed claimedAt))).1
  simp only [Server.serve, updateJobSql, taken, answers, seen, one, List.map_cons, List.map_nil,
    mark, Bool.false_eq_true, if_false]

theorem serve_readJob {m : Moment Context Database Exc} (keeps : ∀ o ∈ ops, KeepsJobs o)
    (quiet : Undisturbed job (claimLog job claimedAt ++ ops) m) :
    postgres.serve (select [] fun d => d.jobs.find? (·.id = job.id)) m
        ⟨claimLog job claimedAt ++ ops, false⟩ =
      (.ok (some (job.claimed claimedAt)), ⟨claimLog job claimedAt ++ ops, false⟩) := by
  obtain ⟨answers, locked, unique, visible, seen⟩ := quiet
  have one := seen_claimed keeps locked unique seen
  have found : visible.jobs.find? (·.id = job.id) = some (job.claimed claimedAt) := by
    rw [← List.head?_filter, one]
    rfl
  simp [Server.serve, select, refusedText, answers, seen, found]

/-- Without a server error, and with a text that the driver takes, the job is marked. -/
theorem finishJob_run (keeps : ∀ o ∈ ops, KeepsJobs o)
    (quiet : ∀ n, Undisturbed job (claimLog job claimedAt ++ ops) (schedule n))
    (taken : ∀ e, result = .error e → hasNul e.message = false) :
    ∃ k, (finishJob cfg now (job.claimed claimedAt) result).run postgres schedule
        ⟨claimLog job claimedAt ++ ops, false⟩ =
      ⟨.ok true, ⟨claimLog job claimedAt ++ ops ++ [.updateJob (job.claimed claimedAt)
        ((job.claimed claimedAt).ended cfg.jobMaxAttempts now result)], false⟩,
        fun n => schedule (n + k)⟩ := by
  have updates : ∀ (texts : List String) (set : Job → Job) (n : Nat), refusedText texts = none →
      (∀ j, (set j).id = j.id ∧ (set j).kind = j.kind ∧ (set j).documentId = j.documentId) →
      postgres.serve (updateJobSql job.id texts set) (schedule n)
          ⟨claimLog job claimedAt ++ ops, false⟩ =
        (.ok (), ⟨claimLog job claimedAt ++ ops ++
          [.updateJob (job.claimed claimedAt) (set (job.claimed claimedAt))], false⟩) :=
    fun texts set n text same => serve_updateJob keeps (quiet n) text (fun j => (same j).1)
      (fun j => (same j).2.1) fun j => (same j).2.2
  cases result with
  | ok u =>
      refine ⟨1, ?_⟩
      show Prog.run _ ((Prog.execute (updateJobSql job.id [] fun j => j.succeed now)).bind _) _ _ = _
      rw [Prog.run_execute_bind, updates [] (fun j => j.succeed now) 0 rfl
        fun _ => ⟨rfl, rfl, rfl⟩]
      rfl
  | error e =>
      have text : refusedText [e.message] = none := by
        rw [refusedText_eq_none]
        simpa using taken e rfl
      have version : (job.claimed claimedAt).ended cfg.jobMaxAttempts now (.error e) =
        (job.claimed claimedAt).fail (failedStatus cfg.jobMaxAttempts (job.attempts + 1) e)
          e.message := rfl
      rw [version]
      show ∃ k, ((markFailed cfg.jobMaxAttempts job.id e.message e.cls.isPermanentJobError).bind
        fun _ => .ret (.ok true)).run _ _ _ = _
      unfold markFailed failedStatus
      split
      · refine ⟨1, ?_⟩
        rw [Prog.run_execute_bind, updates _ (fun j => j.fail .deadLetter e.message) 0 text
          fun _ => ⟨rfl, rfl, rfl⟩]
        rfl
      · refine ⟨2, ?_⟩
        rw [Prog.bind_eq, Prog.bind_assoc, Prog.run_execute_bind, serve_readJob keeps (quiet 0)]
        show Prog.run _ ((Prog.execute (updateJobSql job.id [e.message] fun j =>
          j.fail (retryStatus (job.attempts + 1) cfg.jobMaxAttempts) e.message)).bind _) _ _ = _
        rw [Prog.run_execute_bind, updates _ (fun j =>
          j.fail (retryStatus (job.attempts + 1) cfg.jobMaxAttempts) e.message) 1 text
          fun _ => ⟨rfl, rfl, rfl⟩]
        rfl

/-- The text parameters of the mark. -/
def markTexts : Except Exc Unit → List String
  | .ok () => []
  | .error e => [e.message]

theorem markTexts_refused (result : Except Exc Unit) :
    (∃ x, refusedText (markTexts result) = some x) ↔
      ∃ e, result = .error e ∧ hasNul e.message = true := by
  cases result with
  | ok u => simp [markTexts, refusedText]
  | error e => simp [markTexts, refusedText]

/-- Every mark is one update, which a lookup may come before. -/
theorem finishJob_eq (cfg : Settings) (now : Time) (claimed : Job) (result : Except Exc Unit) :
    (∃ set, finishJob cfg now claimed result =
      (Prog.execute (updateJobSql claimed.id (markTexts result) set)).bind fun _ =>
        .ret (.ok true)) ∨
    ∃ (read : Database → Option Job) (set : Option Job → Job → Job),
      finishJob cfg now claimed result = (Prog.execute (select [] read)).bind fun row =>
        (Prog.execute (updateJobSql claimed.id (markTexts result) (set row))).bind fun _ =>
          .ret (.ok true) := by
  cases result with
  | ok u => exact .inl ⟨_, rfl⟩
  | error e =>
      show (∃ set, (markFailed _ _ _ _).bind _ = _) ∨ ∃ read set, (markFailed _ _ _ _).bind _ = _
      rw [markFailed]
      split
      · exact .inl ⟨_, rfl⟩
      · refine .inr ⟨fun d => d.jobs.find? (·.id = claimed.id), fun row j => j.fail
          (retryStatus ((row.map Job.attempts).getD 0) cfg.jobMaxAttempts) e.message, ?_⟩
        rw [Prog.bind_eq, Prog.bind_assoc]
        rfl

section Update

variable {id : Uuid} {texts : List String} {set : Job → Job} {session : Session RowOp}

/-- An update that ends a pass. -/
abbrev updates (id : Uuid) (texts : List String) (set : Job → Job) : Db Bool :=
  (Prog.execute (updateJobSql id texts set)).bind fun _ => .ret (.ok true)

theorem update_raises (fails : session.aborted = true ∨ ∃ x, refusedText texts = some x) :
    ∃ x, ((updates id texts set).run postgres schedule session).result = .error x := by
  have raised : ∃ x, (postgres.serve (updateJobSql id texts set) (schedule 0) session).1 =
      .error x := by
    obtain aborted | ⟨x, refused⟩ := fails
    · exact (postgres.serve_of_aborted _ _ aborted).2
    · exact ⟨x, by rw [postgres.serve_of_refused (s := updateJobSql id texts set) refused]⟩
  obtain ⟨x, raised⟩ := raised
  refine ⟨x, ?_⟩
  rw [Prog.run_execute_bind, raised]

theorem update_raised {x : Exc}
    (raised : ((updates id texts set).run postgres schedule session).result = .error x) :
    ((updates id texts set).run postgres schedule session).session.aborted = true ∨
      ∃ x, refusedText texts = some x := by
  cases refused : refusedText texts with
  | some e => exact .inr ⟨e, rfl⟩
  | none =>
      rw [Prog.run_execute_bind] at raised ⊢
      cases answered : (postgres.serve (updateJobSql id texts set) (schedule 0) session).1 with
      | ok u =>
          rw [answered] at raised
          cases raised
      | error e => exact .inl (Server.serve_error refused answered)

end Update

/-- After a server error every mark raises, and so does one whose text holds a NUL. -/
theorem finishJob_raises {claimed : Job} {session : Session RowOp}
    (fails : session.aborted = true ∨ ∃ e, result = .error e ∧ hasNul e.message = true) :
    ∃ x, ((finishJob cfg now claimed result).run postgres schedule session).result = .error x := by
  rw [← markTexts_refused] at fails
  obtain ⟨set, program⟩ | ⟨read, set, program⟩ := finishJob_eq cfg now claimed result
  · rw [program]
    exact update_raises fails
  · rw [program, Prog.run_execute_bind]
    cases answered : (postgres.serve (select [] read) (schedule 0) session).1 with
    | error e => exact ⟨e, rfl⟩
    | ok row =>
        refine update_raises (fails.imp_left fun aborted => ?_)
        obtain ⟨e, failed⟩ := (postgres.serve_of_aborted (select [] read) (schedule 0) aborted).2
        cases answered.symm.trans failed

/-- A mark raises for no other reason. -/
theorem finishJob_raised {claimed : Job} {session : Session RowOp} {x : Exc}
    (raised : ((finishJob cfg now claimed result).run postgres schedule session).result = .error x) :
    ((finishJob cfg now claimed result).run postgres schedule session).session.aborted = true ∨
      ∃ e, result = .error e ∧ hasNul e.message = true := by
  rw [← markTexts_refused]
  obtain ⟨set, program⟩ | ⟨read, set, program⟩ := finishJob_eq cfg now claimed result
  · rw [program] at raised ⊢
    exact update_raised raised
  · rw [program, Prog.run_execute_bind] at raised ⊢
    cases answered : (postgres.serve (select [] read) (schedule 0) session).1 with
    | error e => exact .inl (Server.serve_error rfl answered)
    | ok row =>
        rw [answered] at raised
        exact update_raised raised

end Finish

/-! ### A whole pass -/

section Pass

variable {cfg : Settings} {env : JobEnv} {schedule : Nat → Moment Context Database Exc} {job : Job}

/-- The first statement of a pass. -/
def claimRun (cfg : Settings) (env : JobEnv) (schedule : Nat → Moment Context Database Exc) :
    Prog.Outcome Context Database RowOp Exc (Option Job) :=
  (claimOne env.now cfg.jobVisibilityTimeout).run postgres schedule .fresh

/-- The stage of a pass that has claimed the job. -/
def stageRun (cfg : Settings) (env : JobEnv) (schedule : Nat → Moment Context Database Exc)
    (job : Job) : Prog.Outcome Context Database RowOp Exc Unit :=
  (processJob cfg env (job.claimed env.now)).run postgres (claimRun cfg env schedule).rest
    (claimRun cfg env schedule).session

/-- What a claim can lead to. -/
theorem claimRun_cases (cfg : Settings) (env : JobEnv)
    (schedule : Nat → Moment Context Database Exc) :
    (∃ e, (claimRun cfg env schedule).result = .error e ∧
      (claimRun cfg env schedule).session = ⟨[], true⟩) ∨
    ((claimRun cfg env schedule).result = .ok none ∧
      (claimRun cfg env schedule).session = ⟨[], false⟩) ∨
    ∃ job, (claimRun cfg env schedule).result = .ok (some (job.claimed env.now)) ∧
      (claimRun cfg env schedule).session = ⟨claimLog job env.now, false⟩ := by
  obtain ⟨e, refused, _⟩ | ⟨_, e, served⟩ |
      ⟨_, _, _, visible, reply, ops, _, _, answer, _, served⟩ :=
    postgres.serve_cases (claimSql env.now cfg.jobVisibilityTimeout) (schedule 0) .fresh
  · cases refused
  all_goals
    have whole : claimRun cfg env schedule =
      ⟨(postgres.serve (claimSql env.now cfg.jobVisibilityTimeout) (schedule 0) .fresh).1,
        (postgres.serve (claimSql env.now cfg.jobVisibilityTimeout) (schedule 0) .fresh).2,
        fun n => schedule (n + 1)⟩ := rfl
    rw [whole, served]
  · exact .inl ⟨e, rfl, rfl⟩
  · simp only [claimSql, sql] at answer
    split at answer
    · cases answer
      exact .inr (.inl ⟨rfl, rfl⟩)
    · next job _ =>
        cases answer
        exact .inr (.inr ⟨job, rfl, rfl⟩)

/-- A pass that claims nothing has nothing to mark. -/
theorem runOnce_idle (nothing : (claimRun cfg env schedule).result = .ok none) :
    (runOnce cfg env).run postgres schedule .fresh =
      ⟨.ok false, (claimRun cfg env schedule).session, (claimRun cfg env schedule).rest⟩ := by
  unfold claimRun at nothing ⊢
  rw [runOnce]
  rw [Prog.bind_eq, Prog.run_bind, nothing]
  rfl

/-- A pass whose claim fails raises. -/
theorem runOnce_failed {e : Exc} (failed : (claimRun cfg env schedule).result = .error e) :
    (runOnce cfg env).run postgres schedule .fresh =
      ⟨.error e, (claimRun cfg env schedule).session, (claimRun cfg env schedule).rest⟩ := by
  unfold claimRun at failed ⊢
  rw [runOnce]
  rw [Prog.bind_eq, Prog.run_bind, failed]

/-- A pass that claims a job marks it from where its stage ended. -/
theorem runOnce_claimed
    (claims : (claimRun cfg env schedule).result = .ok (some (job.claimed env.now))) :
    (runOnce cfg env).run postgres schedule .fresh =
      (finishJob cfg env.now (job.claimed env.now) (stageRun cfg env schedule job).result).run
        postgres (stageRun cfg env schedule job).rest (stageRun cfg env schedule job).session := by
  rw [claimRun] at claims
  rw [runOnce]
  rw [Prog.bind_eq, Prog.run_bind, claims]
  show ((processJob cfg env (job.claimed env.now)).attempt.bind _).run postgres
    (claimRun cfg env schedule).rest (claimRun cfg env schedule).session = _
  rw [Prog.run_bind, Prog.run_attempt]
  rfl

/-- The attempt is on record: the pass returns `True` and commits the row of the job with
one more attempt, in the status that the end of the stage leads to. -/
def Recorded (maxAttempts : Nat) (job : Job) (result : Except Exc Unit)
    (pass : Prog.Outcome Context Database RowOp Exc Bool) : Prop :=
  ∃ d row, pass.leave postgres = (.ok true, d) ∧ d.jobs.filter (·.id = job.id) = [row] ∧
    row.attempts = job.attempts + 1 ∧
    match result with
    | .ok () => row.status = .succeeded
    | .error e => row.lastError = some e.message ∧
        row.status = if e.cls.isPermanentJobError ∨ row.attempts ≥ maxAttempts then .deadLetter
          else .queued

theorem stageRun_log
    (claims : (claimRun cfg env schedule).session = ⟨claimLog job env.now, false⟩) :
    ∃ ops, (stageRun cfg env schedule job).session.log = claimLog job env.now ++ ops ∧
      ∀ o ∈ ops, KeepsJobs o := by
  have keepsJobs := @processJob_keepsJobs cfg env (job.claimed env.now)
  obtain ⟨ops, log, keeps⟩ := keepsJobs.run (claimRun cfg env schedule).rest
    (claimRun cfg env schedule).session
  refine ⟨ops, log.trans ?_, keeps⟩
  rw [claims]

/-- The mark of an undisturbed job is committed. -/
theorem recorded_of_marked {ops : List RowOp} {cfg : Settings} {now claimedAt : Time}
    {result : Except Exc Unit} {schedule : Nat → Moment Context Database Exc} {k : Nat}
    (keeps : ∀ o ∈ ops, KeepsJobs o)
    (quiet : ∀ n, Undisturbed job (claimLog job claimedAt ++ ops) (schedule n)) :
    Recorded cfg.jobMaxAttempts job result
      ⟨.ok true, ⟨claimLog job claimedAt ++ ops ++ [.updateJob (job.claimed claimedAt)
        ((job.claimed claimedAt).ended cfg.jobMaxAttempts now result)], false⟩,
        fun n => schedule (n + k)⟩ := by
  obtain ⟨_, locked, unique, visible, seen⟩ := quiet (0 + k)
  generalize version : (job.claimed claimedAt).ended cfg.jobMaxAttempts now result = last
  have id : last.id = job.id := by rw [← version, Job.ended_id]; rfl
  have kind : last.kind = job.kind := by rw [← version, Job.ended_kind]; rfl
  have document : last.documentId = job.documentId := by rw [← version, Job.ended_documentId]; rfl
  obtain ⟨marked, one⟩ := mark_replay keeps locked unique seen id kind document
  have whole := Server.replay_append_ok.mpr ⟨visible, seen, marked⟩
  refine
    ⟨{ visible with jobs := replaceRow Job.id job.id last visible.jobs }, last, ?_, one, ?_, ?_⟩
  · simp only [Prog.Outcome.leave, whole]
    rfl
  · rw [← version]
    cases result <;> rfl
  · rw [← version]
    cases result with
    | ok u => rfl
    | error e =>
        refine ⟨rfl, ?_⟩
        show failedStatus cfg.jobMaxAttempts (job.attempts + 1) e = if _ ∨
          job.attempts + 1 ≥ cfg.jobMaxAttempts then _ else _
        unfold failedStatus retryStatus
        grind

/-- A pass on a database in which one job is ready claims it. -/
theorem claimRun_single {d d' : Database} (first : schedule 0 = ⟨d, ⟨d, []⟩, none⟩)
    (candidates : d.jobs.filter (claimable env.now cfg.jobVisibilityTimeout) = [job])
    (found : d.jobs.find? (fun j => j.id = job.id &&
      claimable env.now cfg.jobVisibilityTimeout j) = some job)
    (written : postgres.replay (claimLog job env.now) d = .ok d') :
    claimRun cfg env schedule = ⟨.ok (some (job.claimed env.now)), ⟨claimLog job env.now, false⟩,
      fun n => schedule (n + 1)⟩ := by
  have served := serve_claim_single candidates found written
  show Prog.Outcome.mk (postgres.serve (claimSql env.now cfg.jobVisibilityTimeout) (schedule 0)
    .fresh).1 (postgres.serve (claimSql env.now cfg.jobVisibilityTimeout) (schedule 0) .fresh).2 _ = _
  rw [first, served]
  rfl

theorem claimRun_claims
    (claims : (claimRun cfg env schedule).session = ⟨claimLog job env.now, false⟩) :
    (claimRun cfg env schedule).result = .ok (some (job.claimed env.now)) := by
  obtain ⟨e, _, other⟩ | ⟨_, other⟩ | ⟨j, reply, other⟩ := claimRun_cases cfg env schedule
  · cases claims.symm.trans other
  · cases claims.symm.trans other
  · rw [claims] at other
    obtain ⟨rfl, _⟩ : job = j ∧ job.claimed env.now = j.claimed env.now := by
      simpa [claimLog] using other
    exact reply

/-- A pass whose stage has met no server error and has raised no text that the driver
refuses ends with the mark. -/
theorem runOnce_marked
    (claims : (claimRun cfg env schedule).session = ⟨claimLog job env.now, false⟩)
    (quiet : ∀ n, Undisturbed job (stageRun cfg env schedule job).session.log
      ((stageRun cfg env schedule job).rest n))
    (alive : (stageRun cfg env schedule job).session.aborted = false)
    (taken : ∀ e, (stageRun cfg env schedule job).result = .error e → hasNul e.message = false) :
    ∃ k, (runOnce cfg env).run postgres schedule .fresh =
      ⟨.ok true, ⟨(stageRun cfg env schedule job).session.log ++ [.updateJob (job.claimed env.now)
        ((job.claimed env.now).ended cfg.jobMaxAttempts env.now
          (stageRun cfg env schedule job).result)], false⟩,
        fun n => (stageRun cfg env schedule job).rest (n + k)⟩ := by
  obtain ⟨ops, log, keeps⟩ := stageRun_log claims
  have session :
      (stageRun cfg env schedule job).session = ⟨claimLog job env.now ++ ops, false⟩ := by
    rw [← log, ← alive]
  rw [runOnce_claimed (claimRun_claims claims), session]
  rw [session] at quiet
  exact finishJob_run keeps quiet taken

/-- A pass that returns from a job has met no server error before the mark, and the text
of a failure is taken. -/
theorem stageRun_of_returned
    (claims : (claimRun cfg env schedule).session = ⟨claimLog job env.now, false⟩)
    (returned : ((runOnce cfg env).run postgres schedule .fresh).result = .ok true) :
    (stageRun cfg env schedule job).session.aborted = false ∧
      ∀ e, (stageRun cfg env schedule job).result = .error e → hasNul e.message = false := by
  rw [runOnce_claimed (claimRun_claims claims)] at returned
  refine ⟨?_, fun e failed => ?_⟩
  · rw [← Bool.not_eq_true]
    intro aborted
    obtain ⟨x, raised⟩ := finishJob_raises (.inl aborted)
    cases returned.symm.trans raised
  · rw [← Bool.not_eq_true]
    intro nul
    obtain ⟨x, raised⟩ := finishJob_raises (.inr ⟨e, failed, nul⟩)
    cases returned.symm.trans raised

/-- The attempt is on record exactly if the stage has met no server error and has raised
no text that the driver refuses. -/
theorem recorded_iff (claims : (claimRun cfg env schedule).session = ⟨claimLog job env.now, false⟩)
    (quiet : ∀ n, Undisturbed job (stageRun cfg env schedule job).session.log
      ((stageRun cfg env schedule job).rest n)) :
    Recorded cfg.jobMaxAttempts job (stageRun cfg env schedule job).result
        ((runOnce cfg env).run postgres schedule .fresh) ↔
      (processJob cfg env (job.claimed env.now)).Answered postgres (claimRun cfg env schedule).rest
          (claimRun cfg env schedule).session ∧
        ∀ e, (stageRun cfg env schedule job).result = .error e → hasNul e.message = false := by
  have fresh : (claimRun cfg env schedule).session.aborted = false := by rw [claims]
  rw [Prog.answered_iff _ fresh]
  show _ ↔ (stageRun cfg env schedule job).session.aborted = false ∧ _
  constructor
  · rintro ⟨d, row, left, _⟩
    apply stageRun_of_returned claims
    exact Prog.Outcome.result_of_leave left
  · rintro ⟨alive, taken⟩
    obtain ⟨k, marked⟩ := runOnce_marked claims quiet alive taken
    obtain ⟨ops, log, keeps⟩ := stageRun_log claims
    rw [log] at quiet marked
    rw [marked]
    exact recorded_of_marked keeps quiet

end Pass

end IncidentPipeline
