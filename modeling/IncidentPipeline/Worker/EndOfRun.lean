import IncidentPipeline.Worker.Reextraction
import IncidentPipeline.Worker.Service

/-!
# The end of a run

`scripts/extraction_run` registers sources and looks at their jobs until none of them is
waiting or running. An extract job is created by the transaction that ends its ingest,
so the script cannot look between the two; and what it has seen once stays.
-/

namespace IncidentPipeline

open Tables Transactions

/-! ### One look at the jobs -/

/-- `TERMINAL`. -/
def terminalStatuses : List JobStatus := [.succeeded, .deadLetter]

/-- The groups of the query in the order of `kind, status`, each with its number of jobs. -/
def jobGroups (sourceIds : List Uuid) (jobs : List Job) : List (JobKind × JobStatus × Nat) :=
  let rows := jobs.filter (·.sourceId ∈ sourceIds)
  let groups := [JobKind.extract, .ingest].flatMap fun kind =>
    [JobStatus.deadLetter, .queued, .running, .succeeded].map fun status =>
      (kind, status, rows.countP fun j => j.kind = kind && j.status = status)
  groups.filter (·.2.2 ≠ 0)

/-- Whether `wait_for_jobs` returns after a look. -/
def jobsEnded (sourceIds : List Uuid) (jobs : List Job) : Bool :=
  let rows := jobGroups sourceIds jobs
  let pending := ((rows.filter (·.2.1 ∉ terminalStatuses)).map (·.2.2)).sum
  pending = 0 && !rows.isEmpty

variable {sourceIds : List Uuid} {jobs : List Job}

theorem mem_terminalStatuses {j : Job} : j.status ∈ terminalStatuses ↔ j.Terminal := by
  simp [terminalStatuses, Job.Terminal]

theorem mem_jobGroups {kind : JobKind} {status : JobStatus} {n : Nat} :
    (kind, status, n) ∈ jobGroups sourceIds jobs ↔ n ≠ 0 ∧
      n = (jobs.filter (·.sourceId ∈ sourceIds)).countP
        fun j => j.kind = kind && j.status = status := by
  rw [jobGroups]
  simp only [List.mem_filter, List.mem_flatMap, List.mem_map, Prod.mk.injEq, decide_eq_true_eq]
  constructor
  · rintro ⟨⟨k, _, s, _, rfl, rfl, rfl⟩, some_⟩
    exact ⟨some_, rfl⟩
  · rintro ⟨some_, count⟩
    refine ⟨⟨kind, ?_, status, ?_, rfl, rfl, count.symm⟩, some_⟩
    · cases kind <;> simp
    · cases status <;> simp

/-- Every job of the sources is in a group. -/
theorem group_of_job {j : Job} (member : j ∈ jobs) (source : j.sourceId ∈ sourceIds) :
    ∃ n ≠ 0, (j.kind, j.status, n) ∈ jobGroups sourceIds jobs := by
  refine ⟨_, ?_, mem_jobGroups.mpr ⟨?_, rfl⟩⟩ <;>
  · refine Nat.ne_of_gt (List.countP_pos_iff.mpr ⟨j, ?_, by simp⟩)
    exact List.mem_filter.mpr ⟨member, decide_eq_true source⟩

theorem job_of_group {kind : JobKind} {status : JobStatus} {n : Nat}
    (group : (kind, status, n) ∈ jobGroups sourceIds jobs) :
    ∃ j ∈ jobs, j.sourceId ∈ sourceIds ∧ j.status = status := by
  obtain ⟨some_, rfl⟩ := mem_jobGroups.mp group
  obtain ⟨j, member, matches_⟩ := List.countP_pos_iff.mp (Nat.pos_of_ne_zero some_)
  obtain ⟨member, source⟩ := List.mem_filter.mp member
  rw [Bool.and_eq_true, decide_eq_true_eq, decide_eq_true_eq] at matches_
  exact ⟨j, member, of_decide_eq_true source, matches_.2⟩

/-- The test: there are jobs, and all of them have ended. -/
theorem jobsEnded_iff :
    jobsEnded sourceIds jobs = true ↔
      (∃ j ∈ jobs, j.sourceId ∈ sourceIds) ∧
        ∀ j ∈ jobs, j.sourceId ∈ sourceIds → j.Terminal := by
  rw [jobsEnded]
  simp only [Bool.and_eq_true, decide_eq_true_eq, List.sum_eq_zero_iff, List.forall_mem_map,
    List.mem_filter, Bool.not_eq_true', List.isEmpty_eq_false_iff_exists_mem, Prod.forall,
    Prod.exists]
  constructor
  · rintro ⟨nothing, kind, status, n, group⟩
    refine ⟨?_, fun j member source => ?_⟩
    · obtain ⟨j, member, source, _⟩ := job_of_group group
      exact ⟨j, member, source⟩
    · obtain ⟨n, some_, group⟩ := group_of_job member source
      by_contra running
      exact some_ (nothing _ _ n ⟨group, fun ended => running (mem_terminalStatuses.mp ended)⟩)
  · rintro ⟨⟨j, member, source⟩, ended⟩
    refine ⟨fun kind status n ⟨group, pending⟩ => ?_, ?_⟩
    · obtain ⟨k, there, its, rfl⟩ := job_of_group group
      exact absurd (mem_terminalStatuses.mpr (ended k there its)) pending
    · obtain ⟨n, _, group⟩ := group_of_job member source
      exact ⟨_, _, n, group⟩

/-! ### What was seen once stays -/

variable {maxAttempts : Nat} {d d' : Database} {touched : List Uuid}

/-- A job of another source does not join. -/
theorem filter_append_other {j : Job} (other : j.sourceId ∉ sourceIds) :
    (jobs ++ [j]).filter (·.sourceId ∈ sourceIds) = jobs.filter (·.sourceId ∈ sourceIds) := by
  have nothing : [j].filter (·.sourceId ∈ sourceIds) = [] := by
    simpa using other
  rw [List.filter_append, nothing, List.append_nil]

/-- The jobs of registered sources that have all ended are not written, and no job joins
them. -/
theorem Change.keeps_ended (change : Change maxAttempts d touched d')
    (ids : Keyed Job.id d.jobs) (registered : ∀ id ∈ sourceIds, ∃ s ∈ d.sources, s.id = id)
    (ended : ∀ j ∈ d.jobs, j.sourceId ∈ sourceIds → j.Terminal) :
    d'.jobs.filter (·.sourceId ∈ sourceIds) = d.jobs.filter (·.sourceId ∈ sourceIds) := by
  cases change with
  | idle => rfl
  | @register source jobId now freshSource freshJob =>
      have other : source.id ∉ sourceIds := fun mine =>
        have ⟨s, there, same⟩ := registered source.id mine
        freshSource s there same
      exact filter_append_other other
  | @work job claimedAt now result _ member queued stage =>
      have other : job.sourceId ∉ sourceIds := by
        intro mine
        obtain status | status := ended job member mine <;> rw [queued] at status <;> cases status
      have marked : (replaceRow Job.id job.id
          ((job.claimed claimedAt).ended maxAttempts now result) d.jobs).filter
            (·.sourceId ∈ sourceIds) = d.jobs.filter (·.sourceId ∈ sourceIds) := by
        apply ids.filter_replaceRow _ member (by simpa using other)
        rw [Job.ended_sourceId]
        exact decide_eq_false other
      rw [← marked]
      obtain same | ⟨_, _, _, _, appended⟩ := stage.jobs
      · rw [same]
      · rw [appended]
        exact filter_append_other other

theorem ServiceChange.keeps_ended (change : ServiceChange maxAttempts d touched d')
    (ids : Keyed Job.id d.jobs) (registered : ∀ id ∈ sourceIds, ∃ s ∈ d.sources, s.id = id)
    (ended : ∀ j ∈ d.jobs, j.sourceId ∈ sourceIds → j.Terminal) :
    d'.jobs.filter (·.sourceId ∈ sourceIds) = d.jobs.filter (·.sourceId ∈ sourceIds) := by
  cases change with
  | pipeline change => exact change.keeps_ended ids registered ended
  | revised => rfl

/-- The sources are registered, and their jobs are `rows`, which have ended. -/
structure Ended (sourceIds : List Uuid) (rows : List Job) (d : Database) : Prop where
  registered : ∀ id ∈ sourceIds, ∃ s ∈ d.sources, s.id = id
  jobs : d.jobs.filter (·.sourceId ∈ sourceIds) = rows
  ended : ∀ j ∈ rows, j.Terminal

theorem Ended.step {rows : List Job} {u v : ServiceWorld} {label : Label RowOp}
    (ended : Ended sourceIds rows u.committed)
    (step : Step (serviceSystem maxAttempts) u label v) (valid : ServiceValid maxAttempts u) :
    Ended sourceIds rows v.committed := by
  obtain same | ⟨touched, change⟩ := Step.serviceChange step valid
  · exact same ▸ ended
  · have ids := valid.invariant.jobs.ids
    refine ⟨fun id mine => ?_, ?_, ended.ended⟩
    · obtain ⟨s, there, same⟩ := ended.registered id mine
      exact ⟨s, (change.grows ids).sources s there, same⟩
    · refine (change.keeps_ended ids ended.registered fun j member source => ?_).trans ended.jobs
      refine ended.ended j ?_
      rw [← ended.jobs]
      exact List.mem_filter.mpr ⟨member, decide_eq_true source⟩

/-- When `wait_for_jobs` returns, the run is over: nothing that happens later touches the
jobs of its sources or adds to them. In no committed state is an ingest over and its
extract job missing. -/
theorem waited_for_good (positive : 1 ≤ maxAttempts) {w v : ServiceWorld}
    {labels : List (Label RowOp)}
    (reachable : Reachable (serviceSystem maxAttempts) Database.empty w)
    (registered : ∀ id ∈ sourceIds, ∃ s ∈ w.committed.sources, s.id = id)
    (waited : jobsEnded sourceIds w.committed.jobs = true)
    (run : Run (serviceSystem maxAttempts) w labels v) :
    v.committed.jobs.filter (·.sourceId ∈ sourceIds) =
        w.committed.jobs.filter (·.sourceId ∈ sourceIds) ∧
      jobsEnded sourceIds v.committed.jobs = true ∧
      ∀ source, extractJobs source w.committed.jobs = ingestedJobs source w.committed.jobs := by
  have valid := service_valid positive reachable
  obtain ⟨⟨j, member, source⟩, ended⟩ := jobsEnded_iff.mp waited
  have start : Ended sourceIds (w.committed.jobs.filter (·.sourceId ∈ sourceIds)) w.committed := by
    refine ⟨registered, rfl, fun k there => ?_⟩
    obtain ⟨there, its⟩ := List.mem_filter.mp there
    exact ended k there (of_decide_eq_true its)
  have later : ServiceValid maxAttempts v ∧
      Ended sourceIds (w.committed.jobs.filter (·.sourceId ∈ sourceIds)) v.committed := by
    apply run.induction ⟨valid, start⟩
    rintro a label b step ⟨valid, ended⟩
    exact ⟨step.preserves (service_sound positive) valid, ended.step step valid⟩
  obtain ⟨_, _, jobs, _⟩ := later
  have same : ∀ k : Job, k.sourceId ∈ sourceIds →
      (k ∈ v.committed.jobs ↔ k ∈ w.committed.jobs) := by
    intro k its
    have iff : k ∈ v.committed.jobs.filter (·.sourceId ∈ sourceIds) ↔
        k ∈ w.committed.jobs.filter (·.sourceId ∈ sourceIds) := by rw [jobs]
    simpa [its] using iff
  refine ⟨jobs, jobsEnded_iff.mpr ⟨⟨j, (same j source).mpr member, source⟩, ?_⟩,
    valid.invariant.handover.balance⟩
  exact fun k there its => ended k ((same k its).mp there) its

/-! The page has been ingested and extracted; then it is registered once more. -/

theorem service_transact {d d' : Database} {p : Db Reply} {reply : Reply} {start : Database}
    (reachable : Reachable (serviceSystem 3) start ⟨d, []⟩)
    (program : WorkerProgram 3 (fun _ _ => True) p)
    (returns : p.serial postgres ⟨d, []⟩ ⟨d, false⟩ = (.ok reply, ⟨d', false⟩)) :
    Reachable (serviceSystem 3) start ⟨d', []⟩ := by
  have alone : (serviceSystem 3).context [] ⟨d, []⟩ := by simp [serviceSystem]
  refine reachable.transact (.pipeline program) alone (a := ()) ?_
  show Prog.serial postgres _ _ _ = _
  rw [Prog.serial_bind, returns]
  rfl

theorem waited_for_good_extracted :
    jobsEnded [1] extracted.jobs = true ∧
      ingestedAgain.jobs.filter (·.sourceId ∈ [1]) = extracted.jobs.filter (·.sourceId ∈ [1]) := by
  have ended : jobsEnded [1] extracted.jobs = true := by decide
  have nothing : Reachable (serviceSystem 3) Database.empty ⟨Database.empty, []⟩ := ⟨[], .refl⟩
  have first : Reachable (serviceSystem 3) Database.empty ⟨registered, []⟩ :=
    service_transact nothing (.register ⟨0, 1, 2⟩ "https://example.com/pm") rfl
  have second := service_transact first (.run rfl trivial) ingested_alone
  have third := service_transact second (.run rfl trivial) extracted_alone
  have here : Reachable (serviceSystem 3) extracted ⟨extracted, []⟩ := ⟨[], .refl⟩
  have again : Reachable (serviceSystem 3) extracted ⟨registeredAgain, []⟩ :=
    service_transact here (.register ⟨7, 11, 12⟩ "https://example.com/pm") rfl
  obtain ⟨labels, run⟩ := service_transact again (.run rfl trivial) ingestedAgain_alone
  exact ⟨ended, (waited_for_good (by decide) third (by decide) ended run).1⟩

end IncidentPipeline
