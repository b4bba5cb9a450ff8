import IncidentPipeline.Worker.EndOfRun
import IncidentPipeline.Worker.RunOnce

/-!
# The queue drains

A job is claimed at most `job_max_attempts` times, and an ingest hands over to one more
job, so the passes that a registered source can cost are bounded whatever happens. What
is left of them is a measure that every working pass lowers. From it: the loop of the
worker finds nothing to do after boundedly many passes, and then every job has ended.
-/

namespace IncidentPipeline

open Python Tables Transactions

/-! ### What a job can still cost -/

/-- The passes that can still be spent on a job and on the extraction it may hand over to. -/
def Job.remaining (maxAttempts : Nat) (j : Job) : Nat :=
  if j.status = .succeeded ∨ j.status = .deadLetter then 0
  else
    match j.kind with
    | .ingest => maxAttempts - j.attempts + maxAttempts
    | .extract => maxAttempts - j.attempts

/-- The passes that can still be spent on the queue. -/
def Database.remaining (maxAttempts : Nat) (d : Database) : Nat :=
  (d.jobs.map (Job.remaining maxAttempts)).sum

/-- The attempts on record. -/
def Database.attempts (d : Database) : Nat := (d.jobs.map Job.attempts).sum

/-- Whether a stage hands over to an extraction. -/
def Job.hands (job : Job) (result : Except Exc Unit) : Bool :=
  job.kind = .ingest && result.toBool

section Measure

variable {maxAttempts : Nat} {job : Job} {result : Except Exc Unit} {d d' : Database}

theorem ended_attempts (claimedAt now : Time) :
    ((job.claimed claimedAt).ended maxAttempts now result).attempts = job.attempts + 1 := by
  cases result <;> rfl

/-- The end of a pass lowers what remains by the pass itself, and leaves the attempts of
the extraction that it hands over to. -/
theorem remaining_ended (queued : job.status = .queued) (settled : job.Settled maxAttempts)
    (claimedAt now : Time) :
    ((job.claimed claimedAt).ended maxAttempts now result).remaining maxAttempts + 1 +
        (if job.hands result then maxAttempts else 0) ≤ job.remaining maxAttempts := by
  have started := settled.waiting queued
  have before : job.remaining maxAttempts = match job.kind with
      | .ingest => maxAttempts - job.attempts + maxAttempts
      | .extract => maxAttempts - job.attempts := if_neg (by simp [queued])
  rw [before]
  cases result with
  | ok u =>
      have after : ((job.claimed claimedAt).ended maxAttempts now (.ok u)).remaining maxAttempts =
          0 := if_pos (.inl rfl)
      rw [after, Job.hands]
      cases job.kind
      · simp [Except.toBool]
        omega
      · simp [Except.toBool]
        omega
  | error e =>
      have hands : job.hands (.error e) = false := by simp [Job.hands, Except.toBool]
      rw [hands]
      obtain dead | ⟨again, more⟩ := failedStatus_cases maxAttempts (job.attempts + 1) e
      · have after : ((job.claimed claimedAt).ended maxAttempts now (.error e)).remaining
            maxAttempts = 0 := if_pos (.inr dead)
        rw [after]
        cases job.kind <;> simp <;> omega
      · have after : ((job.claimed claimedAt).ended maxAttempts now (.error e)).remaining
            maxAttempts = match job.kind with
              | .ingest => maxAttempts - (job.attempts + 1) + maxAttempts
              | .extract => maxAttempts - (job.attempts + 1) := by
          refine if_neg ?_
          show ¬(failedStatus maxAttempts (job.attempts + 1) e = _ ∨
            failedStatus maxAttempts (job.attempts + 1) e = _)
          rw [again]
          simp
        rw [after]
        cases job.kind <;> simp <;> omega

theorem remaining_newJob (maxAttempts : Nat) (jobId sourceId : Uuid) (kind : JobKind)
    (documentId : Option Uuid) (now : Time) :
    (newJob jobId sourceId kind documentId now).remaining maxAttempts =
      match kind with
      | .ingest => maxAttempts + maxAttempts
      | .extract => maxAttempts := by
  cases kind <;> rfl

/-- What a stage adds to the queue. -/
theorem StageChange.queue (change : StageChange job result d d') (maxAttempts : Nat) :
    d'.remaining maxAttempts =
        d.remaining maxAttempts + (if job.hands result then maxAttempts else 0) ∧
      d'.attempts = d.attempts := by
  have handed : ∀ (jobId documentId : Uuid) (now : Time), job.kind = .ingest →
      ((d.jobs ++ [newJob jobId job.sourceId .extract (some documentId) now]).map
          (Job.remaining maxAttempts)).sum = d.remaining maxAttempts +
            (if job.hands (Except.ok () : Except Exc Unit) then maxAttempts else 0) ∧
        ((d.jobs ++ [newJob jobId job.sourceId .extract (some documentId) now]).map
          Job.attempts).sum = d.attempts := by
    intro jobId documentId now kind
    rw [List.map_append, List.sum_append, List.map_append, List.sum_append, List.map_singleton,
      List.sum_singleton, remaining_newJob]
    simp [Database.remaining, Database.attempts, Job.hands, kind, Except.toBool, newJob]
  cases change with
  | known now kind found same fresh => exact handed _ _ now kind
  | ingested now kind fresh => exact handed _ _ now kind
  | nothing e => simp [Job.hands, Except.toBool]
  | failed e kind => simp [Job.hands, kind, Database.remaining, Database.attempts]
  | duplicate kind => simp [Job.hands, kind]
  | extracted kind => simp [Job.hands, kind, Database.remaining, Database.attempts]

/-- A working pass is one attempt more on record, and lowers what remains; a registration
adds what its source may cost. -/
theorem Change.spends {touched : List Uuid} (change : Change maxAttempts d touched d')
    (inv : PipelineInvariant maxAttempts d) :
    d'.attempts = d.attempts + touched.length ∧
      d'.remaining maxAttempts + touched.length + 2 * maxAttempts * d.sources.length ≤
        d.remaining maxAttempts + 2 * maxAttempts * d'.sources.length := by
  cases change with
  | idle => simp
  | @register source jobId now freshSource freshJob =>
      simp only [Database.attempts, Database.remaining, List.map_append, List.sum_append,
        List.map_singleton, List.sum_singleton, remaining_newJob, List.length_append,
        List.length_singleton, List.length_nil]
      refine ⟨rfl, ?_⟩
      rw [Nat.mul_add]
      omega
  | @work job claimedAt now result _ member queued stage =>
      have spent := @remaining_ended maxAttempts job result queued (inv.jobs.settled job member)
        claimedAt now
      have counted := @ended_attempts maxAttempts job result claimedAt now
      generalize (job.claimed claimedAt).ended maxAttempts now result = ended at *
      obtain ⟨added, kept⟩ := stage.queue maxAttempts
      have left := inv.jobs.ids.sum_replaceRow (Job.remaining maxAttempts) member ended
      have tried := inv.jobs.ids.sum_replaceRow Job.attempts member ended
      have sources : d'.sources = d.sources := stage.sources
      rw [sources, added, kept]
      simp only [Database.attempts, Database.remaining, List.length_singleton]
      constructor
      · omega
      · omega

/-- A working pass registers no source. -/
theorem ServiceChange.keeps_sources {touched : List Uuid}
    (change : ServiceChange maxAttempts d touched d') (working : touched ≠ []) :
    d'.sources = d.sources := by
  cases change with
  | revised kept => rfl
  | pipeline change =>
      cases change with
      | idle => rfl
      | register => exact absurd rfl working
      | work member queued stage => exact stage.sources

theorem ServiceChange.spends {touched : List Uuid} (change : ServiceChange maxAttempts d touched d')
    (inv : PipelineInvariant maxAttempts d) :
    d'.attempts = d.attempts + touched.length ∧
      d'.remaining maxAttempts + touched.length + 2 * maxAttempts * d.sources.length ≤
        d.remaining maxAttempts + 2 * maxAttempts * d'.sources.length := by
  cases change with
  | pipeline change => exact change.spends inv
  | revised kept => exact ⟨rfl, Nat.le_refl _⟩

end Measure

/-! ### Every interleaving -/

section Accounts

variable {maxAttempts : Nat} {u v w : ServiceWorld} {label : Label RowOp}
  {labels : List (Label RowOp)}

/-- The attempts that a step commits. -/
def attemptsIn : Label RowOp → Nat
  | .committed s => (held s).length
  | _ => 0

theorem Step.commits_change {s : Session RowOp}
    (step : Step (serviceSystem maxAttempts) u (.committed s) v)
    (valid : ServiceValid maxAttempts u) :
    ServiceChange maxAttempts u.committed ((held s).map Job.id) v.committed := by
  cases step with
  | @commit d d' before after session a alive applies => exact valid.finished.2 alive rfl d' applies

theorem Step.spends (step : Step (serviceSystem maxAttempts) u label v)
    (valid : ServiceValid maxAttempts u) :
    v.committed.attempts = u.committed.attempts + attemptsIn label ∧
      v.committed.remaining maxAttempts + attemptsIn label +
          2 * maxAttempts * u.committed.sources.length ≤
        u.committed.remaining maxAttempts + 2 * maxAttempts * v.committed.sources.length := by
  cases step with
  | @commit d d' before after session a alive applies =>
      have change := valid.finished.2 alive rfl d' applies
      simpa [attemptsIn] using change.spends valid.invariant
  | «begin» => exact ⟨rfl, Nat.le_refl _⟩
  | statement => exact ⟨rfl, Nat.le_refl _⟩
  | raise => exact ⟨rfl, Nat.le_refl _⟩
  | crash => exact ⟨rfl, Nat.le_refl _⟩

theorem Run.spends (positive : 1 ≤ maxAttempts) (run : Run (serviceSystem maxAttempts) u labels v)
    (valid : ServiceValid maxAttempts u) :
    ServiceValid maxAttempts v ∧
      v.committed.attempts = u.committed.attempts + (labels.map attemptsIn).sum ∧
      v.committed.remaining maxAttempts + (labels.map attemptsIn).sum +
          2 * maxAttempts * u.committed.sources.length ≤
        u.committed.remaining maxAttempts + 2 * maxAttempts * v.committed.sources.length := by
  induction run with
  | refl => exact ⟨valid, by simp⟩
  | @snoc labels middle finish label _ last ih =>
      obtain ⟨valid, counted, bound⟩ := ih
      obtain ⟨counted', bound'⟩ := Step.spends last valid
      refine ⟨last.preserves (service_sound positive) valid, ?_⟩
      rw [List.map_append, List.sum_append, List.map_singleton, List.sum_singleton]
      constructor
      · omega
      · omega

/-- The attempts that the workers commit are the ones on record, and what they and the
remaining ones come to. -/
theorem attempts_bound (positive : 1 ≤ maxAttempts)
    (run : Run (serviceSystem maxAttempts) ⟨Database.empty, []⟩ labels w) :
    w.committed.attempts = (labels.map attemptsIn).sum ∧
      w.committed.attempts + w.committed.remaining maxAttempts ≤
        2 * maxAttempts * w.committed.sources.length := by
  have start : ServiceValid maxAttempts ⟨Database.empty, []⟩ :=
    service_valid positive ⟨[], .refl⟩
  obtain ⟨_, counted, bound⟩ := Run.spends positive run start
  have nothing : Database.empty.attempts = 0 ∧ Database.empty.remaining maxAttempts = 0 := ⟨rfl, rfl⟩
  have none_yet : Database.empty.sources.length = 0 := rfl
  simp only [nothing, none_yet] at counted bound
  constructor
  · omega
  · omega

/-- The ingest jobs of a source. -/
def ingestJobs (source : Uuid) (jobs : List Job) : Nat :=
  jobs.countP fun j => j.kind = .ingest && j.sourceId = source

/-- How often a source is in the table. -/
def sourceRows (id : Uuid) (sources : List Source) : Nat := sources.countP (·.id = id)

theorem StageChange.ingestJobs {job : Job} {result : Except Exc Unit} {d d' : Database}
    (change : StageChange job result d d') (source : Uuid) :
    ingestJobs source d'.jobs = ingestJobs source d.jobs := by
  obtain same | ⟨_, _, _, _, appended⟩ := change.jobs
  · rw [same]
  · rw [appended, IncidentPipeline.ingestJobs, List.countP_append]
    simp [IncidentPipeline.ingestJobs, newJob]

/-- A registration is one ingest job of a new source, and no other change makes any. -/
theorem ServiceChange.ingestJobs {touched : List Uuid} {d d' : Database}
    (change : ServiceChange maxAttempts d touched d') (inv : PipelineInvariant maxAttempts d)
    (source : Uuid) (same : ingestJobs source d.jobs = sourceRows source d.sources) :
    ingestJobs source d'.jobs = sourceRows source d'.sources := by
  cases change with
  | revised kept => exact same
  | pipeline change =>
      cases change with
      | idle => exact same
      | @register row jobId now freshSource freshJob =>
          simp only [IncidentPipeline.ingestJobs, sourceRows, List.countP_append,
            List.countP_singleton, newJob] at same ⊢
          simp [same]
      | @work job claimedAt now result _ member queued stage =>
          have counted := inv.jobs.ids.countP_replaceRow
            (fun j => j.kind = .ingest && j.sourceId = source) member
            ((job.claimed claimedAt).ended maxAttempts now result)
          simp only [Job.ended_kind, Job.ended_sourceId] at counted
          have kept : sourceRows source d'.sources = sourceRows source d.sources := by
            rw [stage.sources]
          rw [stage.ingestJobs, kept, ← same]
          exact Nat.add_right_cancel counted

theorem countP_source (source : Uuid) (jobs : List Job) :
    jobs.countP (·.sourceId = source) = ingestJobs source jobs + extractJobs source jobs := by
  induction jobs with
  | nil => rfl
  | cons j rest ih =>
      simp only [IncidentPipeline.ingestJobs, extractJobs, List.countP_cons] at ih ⊢
      rw [ih]
      cases j.kind with
      | ingest =>
          simp
          omega
      | extract =>
          simp
          omega

theorem sum_attempts_le {jobs : List Job} (bounded : ∀ j ∈ jobs, j.attempts ≤ maxAttempts) :
    (jobs.map Job.attempts).sum ≤ jobs.length * maxAttempts := by
  have bound := List.sum_le_card_nsmul (jobs.map Job.attempts) maxAttempts (by simpa using bounded)
  simpa using bound

/-- Every attempt that a worker commits is on record and none is counted twice; a registered
source has one ingest job and at most one extract job, so that it costs at most
`2 * maxAttempts` attempts, whatever the others do. -/
theorem source_costs (positive : 1 ≤ maxAttempts)
    (run : Run (serviceSystem maxAttempts) ⟨Database.empty, []⟩ labels w) :
    (labels.map attemptsIn).sum = w.committed.attempts ∧
      ∀ s ∈ w.committed.sources, ingestJobs s.id w.committed.jobs = 1 ∧
        extractJobs s.id w.committed.jobs ≤ 1 ∧
        ((w.committed.jobs.filter (·.sourceId = s.id)).map Job.attempts).sum ≤ 2 * maxAttempts := by
  have start : ServiceValid maxAttempts ⟨Database.empty, []⟩ := service_valid positive ⟨[], .refl⟩
  obtain ⟨valid, ingests⟩ : ServiceValid maxAttempts w ∧
      ∀ id, ingestJobs id w.committed.jobs = sourceRows id w.committed.sources := by
    apply run.induction ⟨start, fun _ => rfl⟩
    rintro a label b step ⟨valid, same⟩
    refine ⟨step.preserves (service_sound positive) valid, fun id => ?_⟩
    obtain unchanged | ⟨touched, change⟩ := Step.serviceChange step valid
    · rw [unchanged]
      exact same id
    · exact change.ingestJobs valid.invariant id (same id)
  refine ⟨(attempts_bound positive run).1.symm, fun s member => ?_⟩
  have one : ingestJobs s.id w.committed.jobs = 1 := by
    rw [ingests, sourceRows, List.countP_eq_length_filter,
      valid.invariant.sources.filter_key member]
    rfl
  have handed : extractJobs s.id w.committed.jobs ≤ 1 := by
    rw [valid.invariant.handover.balance, ← one]
    refine List.countP_mono_left fun j _ ended => ?_
    simp only [Bool.and_eq_true, decide_eq_true_eq] at ended ⊢
    exact ⟨ended.1.1, ended.2⟩
  refine ⟨one, handed, ?_⟩
  have both : (w.committed.jobs.filter (·.sourceId = s.id)).length ≤ 2 := by
    rw [← List.countP_eq_length_filter, countP_source]
    omega
  have settled : ∀ j ∈ w.committed.jobs.filter (·.sourceId = s.id), j.attempts ≤ maxAttempts :=
    fun j hj => (valid.invariant.jobs.settled j (List.mem_of_mem_filter hj)).bounded
  exact (sum_attempts_le settled).trans (Nat.mul_le_mul_right _ both)

theorem served_registered : Reachable (serviceSystem 3) Database.empty ⟨registered, []⟩ := by
  have nothing : Reachable (serviceSystem 3) Database.empty ⟨Database.empty, []⟩ := ⟨[], .refl⟩
  exact service_transact nothing (.register ⟨0, 1, 2⟩ "https://example.com/pm") rfl

/-- The page is registered, ingested and extracted. -/
theorem served_extracted : Reachable (serviceSystem 3) Database.empty ⟨extracted, []⟩ := by
  have second := service_transact served_registered (.run rfl trivial) ingested_alone
  exact service_transact second (.run rfl trivial) extracted_alone

theorem source_costs_extracted : ∃ labels w,
    Run (serviceSystem 3) ⟨Database.empty, []⟩ labels w ∧
      (labels.map attemptsIn).sum = 2 ∧ extractJobs 1 w.committed.jobs ≤ 1 := by
  obtain ⟨labels, run⟩ := served_extracted
  obtain ⟨counted, sources⟩ := source_costs (by decide) run
  exact ⟨labels, _, run, counted, (sources ⟨1, "https://example.com/pm", 0⟩ (by decide)).2.1⟩

end Accounts

/-! ### What a claim takes -/

section Claims

variable {maxAttempts : Nat} {w : ServiceWorld}

/-- In committed tables the jobs that can be claimed are the queued ones. -/
theorem JobTable.claimable_iff {jobs : List Job} (table : JobTable maxAttempts jobs) {j : Job}
    (member : j ∈ jobs) (now visibilityTimeout : Time) :
    claimable now visibilityTimeout j = true ↔ j.status = .queued := by
  have idle := (table.settled j member).idle
  simp [claimable, idle]

theorem JobTable.queued_or_terminal {jobs : List Job} (table : JobTable maxAttempts jobs) {j : Job}
    (member : j ∈ jobs) : j.status = .queued ∨ j.Terminal := by
  have idle := (table.settled j member).idle
  cases status : j.status with
  | queued => exact .inl rfl
  | running => exact absurd status idle
  | succeeded => exact .inr (.inl status)
  | deadLetter => exact .inr (.inr status)

section Free

variable {d : Database} {now visibilityTimeout : Time} {locked : List Uuid}

theorem mem_candidates (table : JobTable maxAttempts d.jobs) {j : Job} (member : j ∈ d.jobs)
    (queued : j.status = .queued) :
    j ∈ (d.jobs.filter (claimable now visibilityTimeout)).mergeSort
      fun a b => a.createdAt ≤ b.createdAt := by
  rw [List.mem_mergeSort, List.mem_filter]
  exact ⟨member, (table.claimable_iff member _ _).mpr queued⟩

theorem find?_candidate (table : JobTable maxAttempts d.jobs) {j : Job} (member : j ∈ d.jobs)
    (queued : j.status = .queued) :
    d.jobs.find? (fun k => k.id = j.id && claimable now visibilityTimeout k) = some j := by
  have ready := (table.claimable_iff member now visibilityTimeout).mpr queued
  cases found : d.jobs.find? (fun k => k.id = j.id && claimable now visibilityTimeout k) with
  | none => simpa [ready] using List.find?_eq_none.mp found j member
  | some k =>
      have same := List.find?_some found
      simp only [Bool.and_eq_true, decide_eq_true_eq] at same
      rw [table.ids.eq_of_key (List.mem_of_find?_eq_some found) member same.1]

/-- A claim that finds nothing finds no job free. -/
theorem claimTarget_none (table : JobTable maxAttempts d.jobs)
    (nothing : claimTarget now visibilityTimeout ⟨d, locked⟩ d = none) {j : Job}
    (member : j ∈ d.jobs) (queued : j.status = .queued) : j.id ∈ locked := by
  have skipped := List.findSome?_eq_none_iff.mp nothing j (mem_candidates table member queued)
  by_contra free
  rw [if_neg free, find?_candidate table member queued] at skipped
  cases skipped

/-- A claim takes the oldest job that is free. -/
theorem claimTarget_oldest (table : JobTable maxAttempts d.jobs) {job : Job}
    (target : claimTarget now visibilityTimeout ⟨d, locked⟩ d = some job) {j : Job}
    (member : j ∈ d.jobs) (queued : j.status = .queued) (free : j.id ∉ locked) :
    job.createdAt ≤ j.createdAt := by
  obtain ⟨before, first, after, order, found, skipped⟩ := List.findSome?_eq_some_iff.mp target
  have sorted := @List.pairwise_mergeSort Job (fun a b => a.createdAt ≤ b.createdAt)
    (fun a b c => by simpa using le_trans) (fun a b => by simpa using le_total _ _)
    (d.jobs.filter (claimable now visibilityTimeout))
  have listed : first ∈ before ++ first :: after := by simp
  rw [← order, List.mem_mergeSort, List.mem_filter] at listed
  obtain rfl : first = job := by
    rw [find?_candidate table listed.1 ((table.claimable_iff listed.1 _ _).mp listed.2)] at found
    split at found
    · cases found
    · exact Option.some.inj found
  have there := @mem_candidates maxAttempts d now visibilityTimeout table j member queued
  rw [order] at sorted there
  obtain early | late := List.mem_append.mp there
  · have passed := skipped j early
    rw [if_neg free, find?_candidate table member queued] at passed
    cases passed
  · obtain rfl | late := List.mem_cons.mp late
    · exact le_refl _
    · have ordered := (List.pairwise_cons.mp (List.pairwise_append.mp sorted).2.1).1 j late
      simpa using ordered

/-- The claim of a job of a committed table goes through. -/
theorem claim_written (table : JobTable maxAttempts d.jobs) {job : Job} (member : job ∈ d.jobs)
    (now : Time) : ∃ d', postgres.replay (claimLog job now) d = .ok d' := by
  refine ⟨_, replay_singleton.mpr ⟨?_, rfl⟩⟩
  refine List.forall_mem_cons.mpr ⟨?_, List.forall_mem_singleton.mpr
    (decide_eq_true (table.settled job member).document)⟩
  rw [List.all_eq_true]
  intro j hj
  exact decide_eq_true (mem_otherRows.mp hj).2

end Free

/-- At any moment of any run, with the snapshot up to date, a claim goes through. It comes
back with nothing only if every unfinished job is in the hands of another transaction, and
otherwise it takes the oldest of those that are not. -/
theorem claim_takes_oldest_free (positive : 1 ≤ maxAttempts)
    (reachable : Reachable (serviceSystem maxAttempts) Database.empty w)
    (now visibilityTimeout : Time) (locked : List Uuid)
    (given : ∀ id, id ∈ locked ↔ ∃ t ∈ w.opened, ∃ j ∈ held t.session, j.id = id) :
    (postgres.serve (claimSql now visibilityTimeout) ⟨w.committed, ⟨w.committed, locked⟩, none⟩
          .fresh = (.ok none, ⟨[], false⟩) ∧
        ∀ j ∈ w.committed.jobs, j.Terminal ∨ ∃ t ∈ w.opened, ∃ k ∈ held t.session, k.id = j.id) ∨
      ∃ job ∈ w.committed.jobs, job.status = .queued ∧
        postgres.serve (claimSql now visibilityTimeout) ⟨w.committed, ⟨w.committed, locked⟩, none⟩
          .fresh = (.ok (some (job.claimed now)), ⟨claimLog job now, false⟩) ∧
        (∀ t ∈ w.opened, ∀ k ∈ held t.session, k.id ≠ job.id) ∧
        ∀ j ∈ w.committed.jobs, j.status = .queued →
          (∀ t ∈ w.opened, ∀ k ∈ held t.session, k.id ≠ j.id) → job.createdAt ≤ j.createdAt := by
  have table := (service_valid positive reachable).invariant.jobs
  have unlocked : ∀ id, id ∉ locked ↔ ∀ t ∈ w.opened, ∀ k ∈ held t.session, k.id ≠ id := by
    intro id
    rw [given]
    push Not
    rfl
  cases target : claimTarget now visibilityTimeout ⟨w.committed, locked⟩ w.committed with
  | none =>
      refine .inl ⟨by simp [Server.serve, claimSql, sql, target], fun j hj => ?_⟩
      refine (table.queued_or_terminal hj).symm.imp id fun queued => ?_
      exact (given j.id).mp (claimTarget_none table target hj queued)
  | some job =>
      obtain ⟨member, ready, free⟩ := claimTarget_spec target
      obtain ⟨d', written⟩ := claim_written table member now
      refine .inr ⟨job, member, (table.claimable_iff member _ _).mp ready, ?_,
        (unlocked job.id).mp free, fun j hj queued others => ?_⟩
      · unfold claimLog at written ⊢
        simp [Server.serve, claimSql, sql, target, written]
      · exact claimTarget_oldest table target hj queued ((unlocked j.id).mpr others)

/-! Two pages are registered, and a worker has the job of the first one in its hands. -/

def registeredTwice : Database :=
  { registered with
    sources := registered.sources ++ [⟨11, "https://example.com/two", 1⟩]
    jobs := registered.jobs ++ [newJob 12 11 .ingest none 1] }

theorem served_registeredTwice :
    Reachable (serviceSystem 3) Database.empty ⟨registeredTwice, []⟩ :=
  service_transact served_registered (.register ⟨1, 11, 12⟩ "https://example.com/two") rfl

/-- A pass that starts while nobody else is at work takes the first job in line. -/
theorem served_claim {d : Database} {cfg : Settings} {env : JobEnv} {job : Job}
    (reachable : Reachable (serviceSystem maxAttempts) Database.empty ⟨d, []⟩)
    (same : cfg.jobMaxAttempts = maxAttempts)
    (target : claimTarget env.now cfg.jobVisibilityTimeout ⟨d, []⟩ d = some job)
    (writes : (postgres.replay (claimLog job env.now) d).toBool = true) :
    ∃ t, Reachable (serviceSystem maxAttempts) Database.empty ⟨d, [t]⟩ ∧
      t.session = ⟨claimLog job env.now, false⟩ := by
  have worker : ServiceProgram maxAttempts (((runOnce cfg env).bind
      fun claimed => (.ret (.ok (.worked claimed)) : Db Reply)).bind fun _ => .ret (.ok ())) :=
    .pipeline (.run same trivial)
  obtain ⟨next, program⟩ : ∃ next, ((runOnce cfg env).bind
      (fun claimed => (.ret (.ok (.worked claimed)) : Db Reply))).bind
        (fun _ => (.ret (.ok ()) : Db Unit)) =
      .stmt (claimSql env.now cfg.jobVisibilityTimeout) next := ⟨_, rfl⟩
  rw [program] at worker
  have begun := reachable.run (Run.single (.begin worker))
  have given : (serviceSystem maxAttempts).context
      (([] ++ [] : List (Txn Context Database RowOp Exc Unit)).map Txn.session) ⟨d, []⟩ := by
    simp [serviceSystem]
  have step := @Step.statement Context Database RowOp Exc Unit (serviceSystem maxAttempts) d [] []
    .fresh _ (claimSql env.now cfg.jobVisibilityTimeout) next _ ⟨d, []⟩ given none rfl
  exact ⟨_, begun.run (Run.single step), serve_claim target writes⟩

/-- The second job is taken, since the older one is not free. -/
theorem claim_takes_oldest_free_registered :
    postgres.serve (claimSql 9 60) ⟨registeredTwice, ⟨registeredTwice, [2]⟩, none⟩ .fresh =
      (.ok (some ((newJob 12 11 .ingest none 1).claimed 9)),
        ⟨claimLog (newJob 12 11 .ingest none 1) 9, false⟩) := by
  have jobs : registeredTwice.jobs.filter (claimable 5 60) =
      [newJob 2 1 .ingest none 0, newJob 12 11 .ingest none 1] := by decide
  have target : claimTarget 5 60 ⟨registeredTwice, []⟩ registeredTwice =
      some (newJob 2 1 .ingest none 0) := by
    rw [claimTarget, jobs, List.mergeSort_of_pairwise (by decide)]
    decide
  obtain ⟨t, reachable, session⟩ := @served_claim 3 _ smallSettings smallEnv _
    served_registeredTwice rfl target (by decide)
  have holds : held t.session = [newJob 2 1 .ingest none 0] := by
    rw [session]
    rfl
  have others : ∀ u ∈ [t], ∀ k ∈ held u.session, k.id ≠ 12 := by
    intro u hu k hk
    rw [List.mem_singleton.mp hu, holds, List.mem_singleton] at hk
    rw [hk]
    decide
  obtain ⟨_, idle⟩ | ⟨job, member, queued, taken, free, _⟩ :=
    claim_takes_oldest_free (by decide) reachable 9 60 [2] (by simp [holds, newJob, eq_comm])
  · have second : newJob 12 11 .ingest none 1 ∈ registeredTwice.jobs := by decide
    obtain ended | ⟨u, hu, k, hk, same⟩ := idle _ second
    · simp [Job.Terminal, newJob] at ended
    · exact absurd same (others u hu k hk)
  · have known : job = newJob 2 1 .ingest none 0 ∨ job = newJob 12 11 .ingest none 1 := by
      simpa [registeredTwice, registered] using member
    obtain rfl | rfl := known
    · exact absurd rfl (free t (by simp) (newJob 2 1 .ingest none 0) (by simp [holds]))
    · exact taken

end Claims

/-! ### The loop of the worker -/

/-- What one iteration of `main` meets: settings and surroundings, and the errors that the
server reports for reasons of its own. -/
structure Turn where
  cfg : Settings
  env : JobEnv
  faults : Nat → Option Exc

/-- Nobody else is at work while it runs. -/
def Turn.moments (turn : Turn) (d : Database) : Nat → Moment Context Database Exc :=
  fun n => ⟨d, ⟨d, []⟩, turn.faults n⟩

def Turn.take (turn : Turn) (d : Database) : Except Exc Bool × Database :=
  ((runOnce turn.cfg turn.env).run postgres (turn.moments d) .fresh).leave postgres

/-- What an iteration did: it worked on a job, it found none and slept, or the exception left
`main` and ended the process. -/
inductive Iteration where
  | worked
  | slept
  | died (e : Exc)

def iteration : Except Exc Bool → Iteration
  | .ok true => .worked
  | .ok false => .slept
  | .error e => .died e

/-- The iterations of `main`, and of the processes that are started after one has died. -/
def workerMain : List Turn → Database → List Iteration × Database
  | [], d => ([], d)
  | turn :: later, d =>
      let (claimed, d') := turn.take d
      let (iterations, finish) := workerMain later d'
      (iteration claimed :: iterations, finish)

section Loop

variable {maxAttempts : Nat} {d : Database} {turn : Turn}

@[simp] theorem Turn.moments_committed (turn : Turn) (d : Database) (n : Nat) :
    (turn.moments d n).committed = d := rfl

/-- A mark that returns has left the transaction alive. -/
theorem finishJob_alive {cfg : Settings} {now : Time} {claimed : Job} {ended : Except Exc Unit}
    {schedule : Nat → Moment Context Database Exc} {session : Session RowOp} {b : Bool}
    (returned : ((finishJob cfg now claimed ended).run postgres schedule session).result = .ok b) :
    b = true ∧
      ((finishJob cfg now claimed ended).run postgres schedule session).session.aborted = false := by
  have update : ∀ (texts : List String) (set : Job → Job) schedule session,
      ((updates claimed.id texts set).run postgres schedule session).result = .ok b →
      b = true ∧ ((updates claimed.id texts set).run postgres schedule session).session.aborted =
        false := by
    intro texts set schedule session returned
    rw [Prog.run_execute_bind] at returned ⊢
    obtain ⟨e, _, served⟩ | ⟨_, e, served⟩ | ⟨_, alive, _, _, _, _, _, _, _, _, served⟩ :=
      postgres.serve_cases (updateJobSql claimed.id texts set) (schedule 0) session
    · rw [served] at returned
      cases returned
    · rw [served] at returned
      cases returned
    · rw [served] at returned ⊢
      cases returned
      exact ⟨rfl, alive⟩
  obtain ⟨set, program⟩ | ⟨read, set, program⟩ := finishJob_eq cfg now claimed ended
  · rw [program] at returned ⊢
    exact update _ _ _ _ returned
  · rw [program, Prog.run_execute_bind] at returned ⊢
    cases answered : (postgres.serve (select [] read) (schedule 0) session).1 with
    | error e =>
        rw [answered] at returned
        cases returned
    | ok row =>
        rw [answered] at returned
        exact update _ _ _ _ returned

/-- A turn is a run of the service in which nobody else takes part. -/
theorem Turn.runs (same : turn.cfg.jobMaxAttempts = maxAttempts) :
    ∃ labels, Run (serviceSystem maxAttempts) ⟨d, []⟩ labels
      ⟨d, [⟨((runOnce turn.cfg turn.env).run postgres (turn.moments d) .fresh).session,
        .ret (((runOnce turn.cfg turn.env).run postgres (turn.moments d) .fresh).result.map
          fun _ => ())⟩]⟩ := by
  have program : ServiceProgram maxAttempts
      (((runOnce turn.cfg turn.env).bind fun claimed => .ret (.ok (Reply.worked claimed))).bind
        fun _ => .ret (.ok ())) :=
    .pipeline (.run same trivial)
  have given : ∀ n, (serviceSystem maxAttempts).context [] (turn.moments d n).context := by
    intro n
    simp [serviceSystem, Turn.moments]
  have begun := Run.single (@Step.begin Context Database RowOp Exc Unit
    (serviceSystem maxAttempts) ⟨d, []⟩ _ program)
  generalize whole : ((runOnce turn.cfg turn.env).bind fun claimed =>
    .ret (.ok (Reply.worked claimed))).bind (fun _ => .ret (.ok ())) = p at begun
  obtain ⟨labels, run⟩ : ∃ labels, Run (serviceSystem maxAttempts) ⟨d, [⟨.fresh, p⟩]⟩ labels
      ⟨d, [⟨(p.run postgres (turn.moments d) .fresh).session,
        .ret (p.run postgres (turn.moments d) .fresh).result⟩]⟩ :=
    Prog.runs_undisturbed given (turn.moments_committed d) p .fresh
  have result : ∀ r : Except Exc Bool,
      (r.map Reply.worked).map (fun _ => ()) = r.map fun _ => () := fun r => by cases r <;> rfl
  rw [← whole, Prog.run_map, Prog.run_map, result, whole] at run
  exact ⟨_, begun.trans run⟩

/-- A turn on which nobody else commits. -/
theorem run_committed {α : Type} {p : Db α} {schedule : Nat → Moment Context Database Exc}
    (still : ∀ n, (schedule n).committed = d) (session : Session RowOp) (n : Nat) :
    ((p.run postgres schedule session).rest n).committed = d := by
  induction p generalizing schedule session with
  | ret r => exact still n
  | stmt s next ih => exact ih _ (fun n => still (n + 1)) _

/-- A pass that works on a job has claimed it. -/
theorem runOnce_holds {b : Bool} {cfg : Settings} {env : JobEnv}
    {schedule : Nat → Moment Context Database Exc}
    (returned : ((runOnce cfg env).run postgres schedule .fresh).result = .ok b) :
    (b = false ∧ (claimRun cfg env schedule).result = .ok none ∧
        ((runOnce cfg env).run postgres schedule .fresh).session = ⟨[], false⟩) ∨
      (b = true ∧ ((runOnce cfg env).run postgres schedule .fresh).session.aborted = false ∧
        held ((runOnce cfg env).run postgres schedule .fresh).session ≠ []) := by
  obtain ⟨e, failed, _⟩ | ⟨nothing, session⟩ | ⟨job, claims, session⟩ :=
    claimRun_cases cfg env schedule
  · rw [runOnce_failed failed] at returned
    cases returned
  · have idle := runOnce_idle nothing
    rw [idle] at returned ⊢
    cases returned
    exact .inl ⟨rfl, nothing, session⟩
  · have program := runOnce_claimed claims
    rw [program] at returned ⊢
    obtain ⟨worked, alive⟩ := finishJob_alive returned
    refine .inr ⟨worked, alive, ?_⟩
    obtain ⟨ops, log, _⟩ := stageRun_log session
    have writes : (finishJob cfg env.now (job.claimed env.now)
        (stageRun cfg env schedule job).result).Writes fun _ => True :=
      finishJob_writes fun _ _ => trivial
    obtain ⟨mark, marked, _⟩ := writes.run (stageRun cfg env schedule job).rest
      (stageRun cfg env schedule job).session
    rw [held_of_alive alive, marked, log, claimLog]
    simp [claimOf, Job.claimed]

theorem claimRun_nothing
    (nothing : (claimRun turn.cfg turn.env (turn.moments d)).result = .ok none) :
    claimTarget turn.env.now turn.cfg.jobVisibilityTimeout ⟨d, []⟩ d = none := by
  change (postgres.serve (claimSql turn.env.now turn.cfg.jobVisibilityTimeout) (turn.moments d 0)
    .fresh).1 = _ at nothing
  obtain ⟨e, refused, _⟩ | ⟨_, e, served⟩ |
      ⟨_, _, _, visible, reply, ops, _, seen, answer, _, served⟩ :=
    postgres.serve_cases (claimSql turn.env.now turn.cfg.jobVisibilityTimeout) (turn.moments d 0)
      .fresh
  · cases refused
  · rw [served] at nothing
    cases nothing
  · rw [served] at nothing
    cases nothing
    cases seen
    simp only [claimSql, sql] at answer
    split at answer
    · assumption
    · cases answer

/-- What a turn of the loop does to a database that nobody else is using. -/
theorem Turn.take_cases (positive : 1 ≤ maxAttempts) (same : turn.cfg.jobMaxAttempts = maxAttempts)
    (reachable : Reachable (serviceSystem maxAttempts) Database.empty ⟨d, []⟩) :
    Reachable (serviceSystem maxAttempts) Database.empty ⟨(turn.take d).2, []⟩ ∧
      match iteration (turn.take d).1 with
      | .worked => (turn.take d).2.remaining maxAttempts + 1 ≤ d.remaining maxAttempts
      | .slept => (turn.take d).2 = d ∧ ∀ j ∈ d.jobs, j.Terminal
      | .died _ => (turn.take d).2 = d := by
  have valid := service_valid positive reachable
  obtain ⟨labels, run⟩ := Turn.runs (d := d) same
  have still := fun n => run_committed (p := runOnce turn.cfg turn.env)
    (turn.moments_committed d) .fresh n
  cases returned : ((runOnce turn.cfg turn.env).run postgres (turn.moments d) .fresh).result with
  | error e =>
      have left : turn.take d = (.error e, d) := by
        rw [Turn.take, Prog.Outcome.leave, returned]
        exact congrArg (Prod.mk _) (still 0)
      rw [left]
      exact ⟨reachable, rfl⟩
  | ok b =>
      rw [returned] at run
      obtain ⟨rfl, nothing, session⟩ | ⟨rfl, alive, holds⟩ := runOnce_holds returned
      · have left : turn.take d = (.ok false, d) := by
          apply Prog.Outcome.leave_of_replay returned
          · rw [session]
          · rw [session, still]
            rfl
        rw [left]
        refine ⟨reachable, rfl, fun j hj => ?_⟩
        obtain queued | ended := valid.invariant.jobs.queued_or_terminal hj
        · cases claimTarget_none valid.invariant.jobs (claimRun_nothing nothing) hj queued
        · exact ended
      · have here := reachable.run run
        cases written : postgres.replay
          ((runOnce turn.cfg turn.env).run postgres (turn.moments d) .fresh).session.log d with
        | error e =>
            have left : turn.take d = (.error e, d) := by
              have committed := still 0
              simp only [Turn.take, Prog.Outcome.leave, returned, alive, committed, written]
              rfl
            rw [left]
            exact ⟨reachable, rfl⟩
        | ok d' =>
            have left : turn.take d = (.ok true, d') := by
              apply Prog.Outcome.leave_of_replay returned alive
              rw [still, written]
            have commit := @Step.commit Context Database RowOp Exc Unit (serviceSystem maxAttempts)
              d d' [] [] _ () alive written
            have change : ServiceChange maxAttempts d _ d' :=
              Step.commits_change commit (service_valid positive here)
            have sources := change.keeps_sources (by simpa using holds)
            have spent := (change.spends valid.invariant).2
            have one := List.length_pos_iff.mpr holds
            rw [sources, List.length_map] at spent
            rw [left]
            refine ⟨here.run (Run.single commit), ?_⟩
            show d'.remaining maxAttempts + 1 ≤ d.remaining maxAttempts
            omega

/-- Whether an iteration worked on a job. -/
def Iteration.isWork : Iteration → Bool
  | .worked => true
  | _ => false

/-- Whether an iteration ended its process. -/
def Iteration.isDeath : Iteration → Bool
  | .died _ => true
  | _ => false

theorem remaining_eq_zero {jobs : List Job} (table : JobTable maxAttempts jobs) :
    (jobs.map (Job.remaining maxAttempts)).sum = 0 ↔ ∀ j ∈ jobs, j.Terminal := by
  simp only [List.sum_eq_zero_iff, List.forall_mem_map]
  refine forall₂_congr fun j hj => ⟨fun nothing => ?_, fun ended => if_pos ended⟩
  obtain queued | ended := table.queued_or_terminal hj
  · have started := (table.settled j hj).waiting queued
    rw [Job.remaining, if_neg (by simp [queued])] at nothing
    split at nothing
    · omega
    · omega
  · exact ended

/-- The loop lowers what remains by every iteration that works; after an iteration that
sleeps nothing is left to do. -/
theorem workerMain_run (positive : 1 ≤ maxAttempts) {turns : List Turn}
    (same : ∀ turn ∈ turns, turn.cfg.jobMaxAttempts = maxAttempts)
    (reachable : Reachable (serviceSystem maxAttempts) Database.empty ⟨d, []⟩) :
    Reachable (serviceSystem maxAttempts) Database.empty ⟨(workerMain turns d).2, []⟩ ∧
      (workerMain turns d).2.remaining maxAttempts +
        (workerMain turns d).1.countP Iteration.isWork ≤ d.remaining maxAttempts ∧
      (.slept ∈ (workerMain turns d).1 → (workerMain turns d).2.remaining maxAttempts = 0) := by
  induction turns generalizing d with
  | nil => exact ⟨reachable, by simp [workerMain], by simp [workerMain]⟩
  | cons turn later ih =>
      obtain ⟨next, taken⟩ := Turn.take_cases positive (same turn List.mem_cons_self) reachable
      obtain ⟨last, spent, slept⟩ := ih (fun t ht => same t (List.mem_cons_of_mem _ ht)) next
      refine ⟨last, ?_, ?_⟩
      · simp only [workerMain, List.countP_cons]
        cases did : iteration (turn.take d).1 with
        | worked =>
            rw [did] at taken
            simp only [Iteration.isWork, if_true]
            omega
        | slept =>
            rw [did] at taken
            simp only [Iteration.isWork, Bool.false_eq_true, if_false]
            rw [taken.1] at spent ⊢
            omega
        | died e =>
            rw [did] at taken
            simp only [Iteration.isWork, Bool.false_eq_true, if_false]
            rw [show (turn.take d).2 = d from taken] at spent ⊢
            omega
      · intro member
        simp only [workerMain, List.mem_cons] at member
        obtain now | after := member
        · rw [← now] at taken
          obtain ⟨same, ended⟩ := taken
          have table := (service_valid positive reachable).invariant.jobs
          have nothing : d.remaining maxAttempts = 0 := (remaining_eq_zero table).mpr ended
          rw [same, nothing] at spent
          show (workerMain later (turn.take d).2).2.remaining maxAttempts = 0
          rw [same]
          omega
        · exact slept after

/-- With nothing left to do, the loop leaves the tables as they are. -/
theorem workerMain_idle (positive : 1 ≤ maxAttempts) {turns : List Turn}
    (same : ∀ turn ∈ turns, turn.cfg.jobMaxAttempts = maxAttempts)
    (reachable : Reachable (serviceSystem maxAttempts) Database.empty ⟨d, []⟩)
    (nothing : d.remaining maxAttempts = 0) : (workerMain turns d).2 = d := by
  induction turns with
  | nil => rfl
  | cons turn later ih =>
      obtain ⟨_, taken⟩ := Turn.take_cases positive (same turn List.mem_cons_self) reachable
      have stays : (turn.take d).2 = d := by
        cases did : iteration (turn.take d).1 with
        | worked =>
            rw [did] at taken
            simp only at taken
            omega
        | slept =>
            rw [did] at taken
            exact taken.1
        | died e =>
            rw [did] at taken
            exact taken
      show (workerMain later (turn.take d).2).2 = d
      rw [stays]
      exact ih fun t ht => same t (List.mem_cons_of_mem _ ht)

theorem workerMain_append (turns more : List Turn) (d : Database) :
    workerMain (turns ++ more) d =
      ((workerMain turns d).1 ++ (workerMain more (workerMain turns d).2).1,
        (workerMain more (workerMain turns d).2).2) := by
  induction turns generalizing d with
  | nil => rfl
  | cons turn later ih => simp [workerMain, ih]

theorem workerMain_length (turns : List Turn) (d : Database) :
    (workerMain turns d).1.length = turns.length := by
  induction turns generalizing d with
  | nil => rfl
  | cons turn later ih => simp [workerMain, ih]

theorem length_of_awake {iterations : List Iteration} (awake : .slept ∉ iterations) :
    iterations.length = iterations.countP Iteration.isWork +
      iterations.countP Iteration.isDeath := by
  induction iterations with
  | nil => rfl
  | cons it rest ih =>
      have shorter := ih fun member => awake (List.mem_cons_of_mem _ member)
      simp only [List.length_cons, List.countP_cons]
      cases it with
      | worked => simp [Iteration.isWork, Iteration.isDeath]; omega
      | slept => exact absurd List.mem_cons_self awake
      | died e => simp [Iteration.isWork, Iteration.isDeath]; omega

/-- The loop of a worker that is alone works at most `2 * maxAttempts` times for each source,
and unless it dies again and again it comes to sleep; when it has slept once, every job has
ended and it changes nothing any more. -/
theorem queue_drains (positive : 1 ≤ maxAttempts) {turns : List Turn}
    (same : ∀ turn ∈ turns, turn.cfg.jobMaxAttempts = maxAttempts)
    (reachable : Reachable (serviceSystem maxAttempts) Database.empty ⟨d, []⟩) :
    (workerMain turns d).1.countP Iteration.isWork ≤ d.remaining maxAttempts ∧
      d.remaining maxAttempts ≤ 2 * maxAttempts * d.sources.length ∧
      (d.remaining maxAttempts + (workerMain turns d).1.countP Iteration.isDeath < turns.length →
        .slept ∈ (workerMain turns d).1) ∧
      (.slept ∈ (workerMain turns d).1 →
        (∀ j ∈ (workerMain turns d).2.jobs, j.status = .succeeded ∨ j.status = .deadLetter) ∧
          ∀ more : List Turn, (∀ turn ∈ more, turn.cfg.jobMaxAttempts = maxAttempts) →
            (workerMain (turns ++ more) d).2 = (workerMain turns d).2) := by
  obtain ⟨last, spent, slept⟩ := workerMain_run positive same reachable
  refine ⟨by omega, ?_, fun long => ?_, fun member => ⟨?_, fun more agree => ?_⟩⟩
  · obtain ⟨labels, run⟩ := reachable
    have bound := (attempts_bound positive run).2
    simp only at bound
    omega
  · by_contra awake
    have counted := length_of_awake awake
    rw [workerMain_length] at counted
    omega
  · exact (remaining_eq_zero (service_valid positive last).invariant.jobs).mp (slept member)
  · rw [workerMain_append]
    exact workerMain_idle positive agree last (slept member)

/-! Turns without faults. -/

def quietTurn (env : JobEnv) : Turn := ⟨cappedSettings, env, fun _ => none⟩

theorem quietTurn_take {env : JobEnv} {b : Bool} {d' : Database}
    (returns : (workerPass env).serial postgres ⟨d, []⟩ ⟨d, false⟩ =
      (.ok (.worked b), ⟨d', false⟩)) : (quietTurn env).take d = (.ok b, d') := by
  obtain ⟨final, replayed, alone⟩ :=
    Prog.serial_eq_run postgres ⟨d, []⟩ d (runOnce cappedSettings env) .fresh rfl
  have same : ((quietTurn env).moments d) = fun _ => ⟨d, ⟨d, []⟩, none⟩ := rfl
  have still : (((runOnce cappedSettings env).run postgres ((quietTurn env).moments d) .fresh).rest
      0).committed = d := run_committed ((quietTurn env).moments_committed d) .fresh 0
  rw [workerPass, Prog.serial_bind, ← Session.fresh_aborted (O := RowOp), alone] at returns
  rw [← same] at replayed returns
  dsimp only at returns
  cases result : ((runOnce cappedSettings env).run postgres ((quietTurn env).moments d)
      .fresh).result with
  | error e =>
      rw [result] at returns
      cases returns
  | ok claimed =>
      rw [result] at returns
      obtain ⟨⟨rfl⟩, left⟩ := Prod.mk.inj returns
      obtain ⟨rfl, alive⟩ := Local.mk.inj left
      exact Prog.Outcome.leave_of_replay result alive
        ((congrArg (postgres.replay _) still).trans replayed)

theorem quietTurn_idle {env : JobEnv}
    (nothing : d.jobs.filter (claimable env.now cappedSettings.jobVisibilityTimeout) = []) :
    (quietTurn env).take d = (.ok false, d) := by
  have target : claimTarget env.now cappedSettings.jobVisibilityTimeout ⟨d, []⟩ d = none := by
    simp [claimTarget, nothing]
  have answer : (claimSql env.now cappedSettings.jobVisibilityTimeout).run ⟨d, []⟩ d =
      .ok (none, []) := by
    simp [claimSql, sql, target]
  have claim : (claimOne env.now cappedSettings.jobVisibilityTimeout).serial postgres ⟨d, []⟩
      ⟨d, false⟩ = (.ok none, ⟨d, false⟩) := Prog.serial_execute_ok rfl answer rfl
  apply quietTurn_take
  rw [workerPass, Prog.serial_bind, runOnce, Prog.bind_eq, Prog.serial_bind, claim]
  rfl

/-- The loop ingests the page, extracts it, and sleeps. -/
theorem queue_drains_extracted :
    ∃ turns, workerMain turns registered = ([.worked, .worked, .slept], extracted) ∧
      2 ≤ registered.remaining 3 ∧ registered.remaining 3 ≤ 6 ∧
      ∀ j ∈ extracted.jobs, j.status = .succeeded ∨ j.status = .deadLetter := by
  let turns := [quietTurn (processEnv "run a" 5 20), quietTurn (processEnv "run a" 6 30),
    quietTurn (processEnv "run a" 7 40)]
  have works : workerMain turns registered = ([.worked, .worked, .slept], extracted) := by
    have idle : extracted.jobs.filter (claimable 7 cappedSettings.jobVisibilityTimeout) = [] := by
      decide
    have third : (quietTurn (processEnv "run a" 7 40)).take extracted = (.ok false, extracted) :=
      quietTurn_idle idle
    simp only [turns, workerMain, quietTurn_take ingested_alone, quietTurn_take extracted_alone,
      third, iteration]
  have agree : ∀ turn ∈ turns, turn.cfg.jobMaxAttempts = 3 := by
    simp [turns, quietTurn, cappedSettings, smallSettings]
  obtain ⟨spent, bound, _, drained⟩ := queue_drains (by decide) agree served_registered
  rw [works] at spent drained
  exact ⟨turns, works, spent, bound, (drained (by simp)).1⟩

end Loop

end IncidentPipeline
