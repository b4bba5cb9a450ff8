import IncidentPipeline.Db.Tables
import IncidentPipeline.Foundation.Trace
import IncidentPipeline.Queue.PostgresQueue

/-!
# The queue on its own

`claim_one`, `mark_succeeded` and `mark_failed`, each in a transaction of its own. A
worker holds no lock between its claim and its mark: if it is slow, the visibility
timeout hands the job to another one, and both hold the right to mark it. An `UPDATE`
commits with its statement, since others wait for the lock of the row; the `SELECT` of
`mark_failed` takes no lock, so everything can happen between it and the `UPDATE`.
-/

namespace IncidentPipeline

open Tables Traces Transactions

/-! ### The steps -/

inductive Mark where
  | succeeded
  | failed (error : String) (permanent : Bool)
deriving DecidableEq, Repr

def Mark.program (maxAttempts : Nat) (id : Uuid) (now : Time) : Mark → Db Unit
  | succeeded => markSucceeded id now
  | failed error permanent => markFailed maxAttempts id error permanent

/-- The status that a mark writes, by the number of attempts that it has read. -/
def Mark.status (maxAttempts attempts : Nat) : Mark → JobStatus
  | succeeded => .succeeded
  | failed _ permanent => if permanent then .deadLetter else retryStatus attempts maxAttempts

/-- The text parameters of a mark. -/
def Mark.texts : Mark → List String
  | succeeded => []
  | failed error _ => [error]

/-- A mark in its own transaction: who issues it, for which job, what is left of its
program, and the database that its `SELECT` has seen. -/
structure PendingMark where
  worker : Nat
  jobId : Uuid
  mark : Mark
  program : Db Unit
  seen : Option Database

/-- The number of attempts that a mark has read, or is about to read. -/
def PendingMark.attempts (pending : PendingMark) (d : Database) : Nat :=
  attemptsOf pending.jobId (pending.seen.getD d)

/-- The status that a mark is about to write. -/
def PendingMark.status (maxAttempts : Nat) (pending : PendingMark) (d : Database) : JobStatus :=
  pending.mark.status maxAttempts (pending.attempts d)

structure QueueWorld where
  db : Database
  now : Time
  claims : List (Nat × Uuid)
  marks : List PendingMark

/-- What a step did, with the database it did it to. -/
inductive QueueLabel where
  | enqueued
  | passed
  | claimed (worker : Nat) (job : Job) (before : Database)
  | started
  | looked
  | wrote (pending : PendingMark) (before : Database)
  | lost

/-- A claim that returns the job of the given identifier. -/
def QueueLabel.claims (id : Uuid) : QueueLabel → Bool
  | .claimed _ job _ => job.id = id
  | _ => false

/-- One step. A transaction sees the time at which it began. -/
inductive QueueStep (visibilityTimeout : Time) (maxAttempts : Nat) :
    QueueWorld → QueueLabel → QueueWorld → Prop where
  | enqueue {w : QueueWorld} {context : Context} {began : Time} {jobId sourceId : Uuid}
      {kind : JobKind} {documentId : Option Uuid} {db : Database} (past : began ≤ w.now)
      (returns : (enqueue jobId began sourceId kind documentId).transact postgres context w.db =
        (.ok jobId, db)) :
      QueueStep visibilityTimeout maxAttempts w .enqueued { w with db := db }
  | pass {w : QueueWorld} {now : Time} (later : w.now ≤ now) :
      QueueStep visibilityTimeout maxAttempts w .passed { w with now := now }
  | claim {w : QueueWorld} {context : Context} {began : Time} {worker : Nat} {job : Job}
      {db : Database} (past : began ≤ w.now)
      (returns : (claimOne began visibilityTimeout).transact postgres context w.db =
        (.ok (some job), db)) :
      QueueStep visibilityTimeout maxAttempts w (.claimed worker job w.db)
        { w with db := db, claims := (worker, job.id) :: w.claims }
  | start {w : QueueWorld} {worker : Nat} {id : Uuid} {mark : Mark}
      (claimed : (worker, id) ∈ w.claims) :
      QueueStep visibilityTimeout maxAttempts w .started
        { w with marks := ⟨worker, id, mark, mark.program maxAttempts id w.now, none⟩ :: w.marks }
  | look {db : Database} {now : Time} {claims : List (Nat × Uuid)} {before after : List PendingMark}
      {worker : Nat} {id : Uuid} {mark : Mark} {seen : Option Database} {s : Sql (Option Job)}
      {next : Except Exc (Option Job) → Db Unit} {reply : Except Exc (Option Job)}
      {context : Context} (served : postgres.serve s ⟨db, context, none⟩ .fresh = (reply, .fresh)) :
      QueueStep visibilityTimeout maxAttempts
        ⟨db, now, claims, before ++ ⟨worker, id, mark, .stmt s next, seen⟩ :: after⟩ .looked
        ⟨db, now, claims, before ++ ⟨worker, id, mark, next reply, some db⟩ :: after⟩
  | write {db : Database} {now : Time} {claims : List (Nat × Uuid)}
      {before after : List PendingMark} {pending : PendingMark} {context : Context} :
      QueueStep visibilityTimeout maxAttempts ⟨db, now, claims, before ++ pending :: after⟩
        (.wrote pending db)
        ⟨(pending.program.transact postgres context db).2, now, claims, before ++ after⟩
  | lose {db : Database} {now : Time} {claims : List (Nat × Uuid)}
      {before after : List PendingMark} {pending : PendingMark} :
      QueueStep visibilityTimeout maxAttempts ⟨db, now, claims, before ++ pending :: after⟩ .lost
        ⟨db, now, claims, before ++ after⟩

/-- The runs of the queue from the empty database. -/
abbrev QueueRun (visibilityTimeout : Time) (maxAttempts : Nat) (start : Time) :
    List QueueLabel → QueueWorld → Prop :=
  Trace (QueueStep visibilityTimeout maxAttempts) ⟨.empty, start, [], []⟩

/-! ### What a transaction does to the jobs -/

variable {context : Context} {d db : Database} {job : Job} {id : Uuid}

theorem transact_execute {ρ : Type} {s : Sql ρ} {reply : ρ} {ops : List RowOp}
    (sent : s.refused = none) (answer : s.run context d = .ok (reply, ops)) :
    (Prog.execute s).transact postgres context d =
      match postgres.replay ops d with
      | .ok d' => (.ok reply, d')
      | .error e => (.error e, d) := by
  rw [Prog.transact]
  rw [Prog.serial_execute, Server.answer]
  simp only [sent, answer, Bool.false_eq_true, if_false]
  cases postgres.replay ops d <;> rfl

/-- An update of a job by its identifier is refused or replaces its row. -/
theorem transact_updateJob {texts : List String} {set : Job → Job} (ids : Keyed Job.id d.jobs) :
    ((Prog.execute (updateJobSql id texts set)).transact postgres context d).2 = d ∨
      refusedText texts = none ∧ ∃ j ∈ d.jobs, j.id = id ∧
        ((Prog.execute (updateJobSql id texts set)).transact postgres context d).2 =
          { d with jobs := replaceRow Job.id id (set j) d.jobs } := by
  cases refused : refusedText texts with
  | some e =>
      left
      rw [Prog.transact]
      rw [Prog.serial_execute, Server.answer]
      simp [updateJobSql, refused]
  | none =>
      rw [transact_execute (s := updateJobSql id texts set) refused rfl]
      by_cases there : ∃ j ∈ d.jobs, j.id = id
      · obtain ⟨j, member, rfl⟩ := there
        rw [ids.filter_key member, List.map_singleton]
        cases written : postgres.replay [.updateJob j (set j)] d with
        | error e => exact .inl rfl
        | ok d' =>
            obtain ⟨_, rfl⟩ := replay_singleton.mp written
            exact .inr ⟨rfl, j, member, rfl, rfl⟩
      · have nobody : d.jobs.filter (·.id = id) = [] := by
          rw [List.filter_eq_nil_iff]
          exact fun j hj same => there ⟨j, hj, of_decide_eq_true same⟩
        rw [nobody]
        exact .inl rfl

theorem transact_select_bind {ρ α : Type} {read : Database → ρ} {f : ρ → Db α} :
    ((Prog.execute (select [] read)).bind f).transact postgres context d =
      (f (read d)).transact postgres context d := by
  unfold Prog.transact
  rw [Prog.serial_bind, serial_select]

/-- A claim takes a job that can be claimed and writes its claimed version. -/
theorem claimOne_transact {began visibilityTimeout : Time}
    (returns : (claimOne began visibilityTimeout).transact postgres context d =
      (.ok (some job), db)) :
    ∃ j ∈ d.jobs, claimable began visibilityTimeout j = true ∧ job = j.claimed began ∧
      db = { d with jobs := replaceRow Job.id j.id (j.claimed began) d.jobs } := by
  rw [claimOne] at returns
  cases found : claimTarget began visibilityTimeout context d with
  | none =>
      have answer : (claimSql began visibilityTimeout).run context d = .ok (none, []) := by
        simp [claimSql, sql, found]
      rw [transact_execute (s := claimSql began visibilityTimeout) rfl answer] at returns
      cases returns
  | some j =>
      have answer : (claimSql began visibilityTimeout).run context d =
          .ok (some (j.claimed began), [.updateJob j (j.claimed began)]) := by
        simp [claimSql, sql, found]
      rw [transact_execute (s := claimSql began visibilityTimeout) rfl answer] at returns
      cases written : postgres.replay [.updateJob j (j.claimed began)] d with
      | error e =>
          rw [written] at returns
          cases returns
      | ok d' =>
          rw [written] at returns
          cases returns
          obtain ⟨member, ready, _⟩ := claimTarget_spec found
          exact ⟨j, member, ready, rfl, (replay_singleton.mp written).2⟩

/-- A job that is enqueued is new. -/
theorem enqueue_transact {jobId sourceId : Uuid} {began : Time} {kind : JobKind}
    {documentId : Option Uuid}
    (returns : (enqueue jobId began sourceId kind documentId).transact postgres context d =
      (.ok jobId, db)) :
    (∀ j ∈ d.jobs, j.id ≠ jobId) ∧
      db = { d with jobs := d.jobs ++ [newJob jobId sourceId kind documentId began] } := by
  rw [enqueue] at returns
  split at returns
  · cases returns
  · have whole : ((Prog.execute (sql fun _ _ =>
        .ok ((), [.insertJob (newJob jobId sourceId kind documentId began)]))).bind
          fun _ => (.ret (.ok jobId) : Db Uuid)).transact postgres context d = (.ok jobId, db) :=
      returns
    rw [Prog.transact] at whole
    rw [Prog.serial_bind, Prog.serial_execute, Server.answer] at whole
    simp only [sql, Bool.false_eq_true, if_false] at whole
    cases written :
        postgres.replay [.insertJob (newJob jobId sourceId kind documentId began)] d with
    | error e =>
        rw [written] at whole
        cases whole
    | ok d' =>
        rw [written] at whole
        obtain ⟨checks, rfl⟩ := replay_singleton.mp written
        cases whole
        exact ⟨Job.checks_ok checks, rfl⟩

/-! ### Marks -/

/-- What a mark can be in the middle of. -/
inductive PendingMark.Legal (maxAttempts : Nat) : PendingMark → Prop where
  | started {worker : Nat} {id : Uuid} (mark : Mark) (now : Time) :
      Legal maxAttempts ⟨worker, id, mark, mark.program maxAttempts id now, none⟩
  | counted {worker : Nat} {id : Uuid} {seen : Database} (error : String) :
      Legal maxAttempts ⟨worker, id, .failed error false, .execute (updateJobSql id [error] fun j =>
        j.fail (retryStatus (attemptsOf id seen) maxAttempts) error), some seen⟩

variable {maxAttempts : Nat}

/-- What a mark changes in a job, whatever its state. -/
structure Job.MarkedAs (status : JobStatus) (j k : Job) : Prop where
  id : k.id = j.id
  attempts : k.attempts = j.attempts
  status : k.status = status

/-- What is left of a mark, executed to its end, leaves the jobs alone or writes the row
of its job. -/
theorem PendingMark.Legal.transact {pending : PendingMark} (legal : pending.Legal maxAttempts)
    (ids : Keyed Job.id d.jobs) :
    (pending.program.transact postgres context d).2 = d ∨
      refusedText pending.mark.texts = none ∧ ∃ j ∈ d.jobs, j.id = pending.jobId ∧
        ∃ k, j.MarkedAs (pending.status maxAttempts d) k ∧
          (pending.program.transact postgres context d).2 =
            { d with jobs := replaceRow Job.id j.id k d.jobs } := by
  have updates : ∀ {id : Uuid} {texts : List String} {set : Job → Job} {status : JobStatus},
      (∀ j, Job.MarkedAs status j (set j)) →
      ((Prog.execute (updateJobSql id texts set)).transact postgres context d).2 = d ∨
        refusedText texts = none ∧ ∃ j ∈ d.jobs, j.id = id ∧ ∃ k, j.MarkedAs status k ∧
          ((Prog.execute (updateJobSql id texts set)).transact postgres context d).2 =
            { d with jobs := replaceRow Job.id j.id k d.jobs } := by
    intro id texts set status marks
    obtain same | ⟨sent, j, member, rfl, written⟩ := @transact_updateJob context d id texts set ids
    · exact .inl same
    · exact .inr ⟨sent, j, member, rfl, set j, marks j, written⟩
  cases legal with
  | counted error => exact updates fun j => ⟨rfl, rfl, rfl⟩
  | started mark now =>
      cases mark with
      | succeeded => exact updates fun j => ⟨rfl, rfl, rfl⟩
      | failed error permanent =>
          cases permanent with
          | true => exact updates fun j => ⟨rfl, rfl, rfl⟩
          | false =>
              show ((Prog.bind _ _).transact postgres context d).2 = d ∨ _
              rw [transact_select_bind]
              exact updates fun j => ⟨rfl, rfl, rfl⟩

/-- An `UPDATE` returns no row. -/
theorem update_ne_select {s : Sql (Option Job)} {next : Except Exc (Option Job) → Db Unit}
    {update : Sql Unit} : (Prog.stmt s next : Db Unit) ≠ .execute update := by
  intro same
  injection same with rows _ _
  have single : Subsingleton (Option Job) := rows ▸ inferInstance
  exact absurd (single.elim none (some (newJob 0 0 .ingest none 0))) (by simp)

/-- A `SELECT` of a mark leaves the rest of its program to be executed. -/
theorem PendingMark.Legal.look {worker : Nat} {mark : Mark} {s : Sql (Option Job)}
    {next : Except Exc (Option Job) → Db Unit} {reply : Except Exc (Option Job)}
    {seen : Option Database}
    (legal : PendingMark.Legal maxAttempts ⟨worker, id, mark, .stmt s next, seen⟩)
    (served : postgres.serve s ⟨d, context, none⟩ .fresh = (reply, .fresh)) :
    PendingMark.Legal maxAttempts ⟨worker, id, mark, next reply, some d⟩ := by
  generalize program : (Prog.stmt s next : Db Unit) = p at legal
  cases legal with
  | counted error => exact absurd program update_ne_select
  | started _ now =>
      cases mark with
      | succeeded => exact absurd program update_ne_select
      | failed error permanent =>
          cases permanent with
          | true => exact absurd program update_ne_select
          | false =>
              cases program
              have answer : postgres.serve (select [] fun d : Database => d.jobs.find? (·.id = id))
                  ⟨d, context, none⟩ .fresh = (.ok (d.jobs.find? (·.id = id)), .fresh) := rfl
              rw [answer] at served
              cases served
              exact .counted error

/-! ### Runs -/

/-- What holds of every world of a run. -/
structure QueueWorld.Sound (maxAttempts : Nat) (w : QueueWorld) : Prop where
  ids : Keyed Job.id w.db.jobs
  legal : ∀ pending ∈ w.marks, pending.Legal maxAttempts

/-- Everything that a step can do to the jobs. -/
inductive JobsMove (visibilityTimeout : Time) (maxAttempts : Nat) (d : Database) :
    QueueLabel → List Job → Prop where
  | same {label : QueueLabel} (unclaimed : ∀ id, label.claims id = false) :
      JobsMove visibilityTimeout maxAttempts d label d.jobs
  | enqueued {id sourceId : Uuid} {kind : JobKind} {documentId : Option Uuid} {began : Time}
      (fresh : ∀ j ∈ d.jobs, j.id ≠ id) :
      JobsMove visibilityTimeout maxAttempts d .enqueued
        (d.jobs ++ [newJob id sourceId kind documentId began])
  | claimed {worker : Nat} {j : Job} {began : Time} (member : j ∈ d.jobs)
      (ready : claimable began visibilityTimeout j = true) :
      JobsMove visibilityTimeout maxAttempts d (.claimed worker (j.claimed began) d)
        (replaceRow Job.id j.id (j.claimed began) d.jobs)
  | wrote {pending : PendingMark} {j k : Job} (sent : refusedText pending.mark.texts = none)
      (member : j ∈ d.jobs) (target : j.id = pending.jobId)
      (marked : j.MarkedAs (pending.status maxAttempts d) k) :
      JobsMove visibilityTimeout maxAttempts d (.wrote pending d) (replaceRow Job.id j.id k d.jobs)

variable {visibilityTimeout : Time} {w v : QueueWorld} {label : QueueLabel}

theorem QueueStep.moves (step : QueueStep visibilityTimeout maxAttempts w label v)
    (sound : w.Sound maxAttempts) :
    JobsMove visibilityTimeout maxAttempts w.db label v.db.jobs := by
  cases step with
  | enqueue past returns =>
      obtain ⟨fresh, rfl⟩ := enqueue_transact returns
      exact .enqueued fresh
  | pass | start | look | lose => exact .same fun _ => rfl
  | claim past returns =>
      obtain ⟨j, member, ready, rfl, rfl⟩ := claimOne_transact returns
      exact .claimed member ready
  | @write _ _ _ _ _ pending context =>
      have legal := sound.legal pending (by simp)
      obtain same | ⟨sent, j, member, target, k, marked, written⟩ :=
        @PendingMark.Legal.transact context _ _ _ legal sound.ids
      · show JobsMove _ _ _ _ (pending.program.transact postgres context _).2.jobs
        rw [same]
        exact .same fun _ => rfl
      · show JobsMove _ _ _ _ (pending.program.transact postgres context _).2.jobs
        rw [written]
        exact .wrote sent member target marked

theorem JobsMove.ids {jobs : List Job}
    (move : JobsMove visibilityTimeout maxAttempts d label jobs) (ids : Keyed Job.id d.jobs) :
    Keyed Job.id jobs := by
  cases move with
  | same => exact ids
  | enqueued fresh => exact ids.append fresh
  | claimed => exact ids.replaceRow rfl
  | wrote _ _ _ marked => exact ids.replaceRow marked.id

theorem QueueStep.sound (step : QueueStep visibilityTimeout maxAttempts w label v)
    (sound : w.Sound maxAttempts) : v.Sound maxAttempts := by
  refine ⟨(step.moves sound).ids sound.ids, ?_⟩
  obtain ⟨_, legal⟩ := sound
  cases step with
  | enqueue | pass | claim => exact legal
  | start claimed =>
      rw [List.forall_mem_cons]
      exact ⟨.started _ _, legal⟩
  | look served =>
      rw [List.forall_mem_append, List.forall_mem_cons] at legal ⊢
      exact ⟨legal.1, legal.2.1.look served, legal.2.2⟩
  | write | lose =>
      rw [List.forall_mem_append, List.forall_mem_cons] at legal
      rw [List.forall_mem_append]
      exact ⟨legal.1, legal.2.2⟩

theorem QueueRun.sound {start : Time} {labels : List QueueLabel}
    (run : QueueRun visibilityTimeout maxAttempts start labels w) : w.Sound maxAttempts :=
  run.invariant ⟨keyed_nil, by simp⟩ fun step sound => step.sound sound

/-! ### Jobs that have ended -/

/-- A mark that is sent for a job that has ended repeats the job's status. -/
def QueueLabel.Repeats (maxAttempts : Nat) : QueueLabel → Prop
  | .wrote pending d => refusedText pending.mark.texts = none → ∀ j ∈ d.jobs,
      j.id = pending.jobId → j.Terminal → pending.status maxAttempts d = j.status
  | _ => True

theorem JobsMove.ended {jobs : List Job}
    (move : JobsMove visibilityTimeout maxAttempts d label jobs) (ids : Keyed Job.id d.jobs)
    (repeats : label.Repeats maxAttempts) (member : job ∈ d.jobs) (ended : job.Terminal) :
    (∃ k ∈ jobs, k.id = job.id ∧ k.status = job.status) ∧ label.claims job.id = false := by
  cases move with
  | same unclaimed => exact ⟨⟨job, member, rfl, rfl⟩, unclaimed job.id⟩
  | enqueued => exact ⟨⟨job, List.mem_append_left _ member, rfl, rfl⟩, rfl⟩
  | @claimed worker j began there ready =>
      have other : job.id ≠ j.id := by
        intro same
        rw [ids.eq_of_key member there same] at ended
        exact ended.not_claimable ready
      exact ⟨⟨job, mem_replaceRow_of_ne member other, rfl, rfl⟩,
        decide_eq_false fun same => other same.symm⟩
  | @wrote pending j k sent there target marked =>
      refine ⟨?_, rfl⟩
      by_cases same : job.id = j.id
      · rw [← ids.eq_of_key member there same] at marked target ⊢
        exact ⟨k, after_mem_replaceRow member rfl, marked.id,
          marked.status.trans (repeats sent job member target ended)⟩
      · exact ⟨job, mem_replaceRow_of_ne member same, rfl, rfl⟩

/-- A job that has ended keeps its status and is never claimed again, as long as the
marks that come late repeat what it ended with. -/
theorem ended_for_good {start : Time} {earlier later : List QueueLabel}
    (run : QueueRun visibilityTimeout maxAttempts start earlier w)
    (on : Trace (QueueStep visibilityTimeout maxAttempts) w later v)
    (repeats : ∀ label ∈ later, label.Repeats maxAttempts) (member : job ∈ w.db.jobs)
    (ended : job.Terminal) :
    (v.db.jobs.filter (·.id = job.id)).map Job.status = [job.status] ∧
      ∀ label ∈ later, label.claims job.id = false := by
  obtain ⟨⟨sound, k, there, same, status⟩, none⟩ := on.countP_le
    (P := fun w => w.Sound maxAttempts ∧ ∃ k ∈ w.db.jobs, k.id = job.id ∧ k.status = job.status)
    (fun label => label.claims job.id) (fun _ => 0) repeats ⟨run.sound, job, member, rfl, rfl⟩ (by
      rintro a label b step repeats ⟨sound, k, there, same, status⟩
      have terminal : k.Terminal := by
        rw [Job.Terminal, status]
        exact ended
      obtain ⟨kept, unclaimed⟩ := (step.moves sound).ended sound.ids repeats there terminal
      rw [same, status] at kept
      rw [same] at unclaimed
      exact ⟨⟨step.sound sound, kept⟩, by simp [unclaimed]⟩)
  refine ⟨?_, ?_⟩
  · rw [← same, sound.ids.filter_key there, List.map_singleton, status]
  · have zero := Nat.le_zero.mp (Nat.le_of_add_left_le none)
    simpa using zero

/-! A queue with a single job, which is claimed, timed out and claimed again. -/

def oneJob (j : Job) : Database := { Database.empty with jobs := [j] }

theorem QueueStep.claim_oneJob {now : Time} {claims : List (Nat × Uuid)} {marks : List PendingMark}
    {worker : Nat} {j : Job} (ready : claimable now visibilityTimeout j = true)
    (document : j.kind = .extract ↔ j.documentId.isSome = true) :
    QueueStep visibilityTimeout maxAttempts ⟨oneJob j, now, claims, marks⟩
      (.claimed worker (j.claimed now) (oneJob j))
      ⟨oneJob (j.claimed now), now, (worker, j.id) :: claims, marks⟩ := by
  have target : claimTarget now visibilityTimeout ⟨oneJob j, []⟩ (oneJob j) = some j :=
    claimTarget_single (by simp [oneJob, ready]) (by simp [oneJob, ready]) (by simp)
  have answer : (claimSql now visibilityTimeout).run ⟨oneJob j, []⟩ (oneJob j) =
      .ok (some (j.claimed now), [.updateJob j (j.claimed now)]) := by
    simp [claimSql, sql, target]
  have written : postgres.replay [.updateJob j (j.claimed now)] (oneJob j) =
      .ok (oneJob (j.claimed now)) := replay_claim_single rfl document
  have returns : (claimOne now visibilityTimeout).transact postgres ⟨oneJob j, []⟩ (oneJob j) =
      (.ok (some (j.claimed now)), oneJob (j.claimed now)) := by
    rw [claimOne, transact_execute (s := claimSql now visibilityTimeout) rfl answer, written]
  exact .claim le_rfl returns

theorem QueueStep.written {db db' : Database} {now : Time} {claims : List (Nat × Uuid)}
    {before after : List PendingMark} {pending : PendingMark}
    (result : (pending.program.transact postgres ⟨db, []⟩ db).2 = db') :
    QueueStep visibilityTimeout maxAttempts ⟨db, now, claims, before ++ pending :: after⟩
      (.wrote pending db) ⟨db', now, claims, before ++ after⟩ := by
  rw [← result]
  exact .write

def loneJob : Job := newJob 1 7 .ingest none 0

/-- The job has been claimed at 0 by one worker and at 61 by another. -/
def reclaimedJob : Job := (loneJob.claimed 0).claimed 61

theorem enqueued_run : QueueRun 60 maxAttempts 0 [.enqueued] ⟨oneJob loneJob, 0, [], []⟩ := by
  have inserted : (enqueue 1 0 7 .ingest none).transact postgres ⟨.empty, []⟩ .empty =
      (.ok 1, oneJob loneJob) := rfl
  exact Trace.single (.enqueue le_rfl inserted)

/-- The queue after both claims. -/
def reclaimedWorld (db : Database) (marks : List PendingMark) : QueueWorld :=
  ⟨db, 61, [(2, 1), (1, 1)], marks⟩

def reclaimedLabels : List QueueLabel :=
  [.enqueued, .claimed 1 (loneJob.claimed 0) (oneJob loneJob), .passed,
    .claimed 2 reclaimedJob (oneJob (loneJob.claimed 0))]

theorem reclaimed_run :
    QueueRun 60 maxAttempts 0 reclaimedLabels (reclaimedWorld (oneJob reclaimedJob) []) := by
  have first : QueueStep 60 maxAttempts ⟨oneJob loneJob, 0, [], []⟩
      (.claimed 1 (loneJob.claimed 0) (oneJob loneJob))
      ⟨oneJob (loneJob.claimed 0), 0, [(1, 1)], []⟩ := .claim_oneJob (by decide) (by decide)
  have later : QueueStep 60 maxAttempts ⟨oneJob (loneJob.claimed 0), 0, [(1, 1)], []⟩ .passed
      ⟨oneJob (loneJob.claimed 0), 61, [(1, 1)], []⟩ := .pass (by decide)
  exact ((enqueued_run.snoc first).snoc later).snoc (.claim_oneJob (by decide) (by decide))

/-- A mark of one of the two workers. -/
def lateMark (worker : Nat) (mark : Mark) : PendingMark :=
  ⟨worker, 1, mark, mark.program 3 1 61, none⟩

theorem late_mark {j k : Job} {worker : Nat} {mark : Mark}
    (claimed : (worker, 1) ∈ [(2, 1), (1, 1)])
    (written : ((mark.program 3 1 61).transact postgres ⟨oneJob j, []⟩ (oneJob j)).2 = oneJob k) :
    Trace (QueueStep 60 3) (reclaimedWorld (oneJob j) [])
      [.started, .wrote (lateMark worker mark) (oneJob j)] (reclaimedWorld (oneJob k) []) := by
  have starts : QueueStep 60 3 (reclaimedWorld (oneJob j) []) .started
      (reclaimedWorld (oneJob j) [lateMark worker mark]) := .start claimed
  have writes : QueueStep 60 3 ⟨oneJob j, 61, [(2, 1), (1, 1)], [] ++ [lateMark worker mark]⟩
      (.wrote (lateMark worker mark) (oneJob j)) ⟨oneJob k, 61, [(2, 1), (1, 1)], [] ++ []⟩ :=
    .written written
  exact (Trace.single starts).snoc writes

/-- Both workers succeed. -/
theorem ended_for_good_twice : ∃ earlier later w v, QueueRun 60 3 0 earlier w ∧
    Trace (QueueStep 60 3) w later v ∧ reclaimedJob.succeed 61 ∈ w.db.jobs ∧
      (v.db.jobs.filter (·.id = 1)).map Job.status = [.succeeded] := by
  have first := reclaimed_run.trans
    (@late_mark _ (reclaimedJob.succeed 61) 2 .succeeded (by decide) rfl)
  have second := @late_mark (reclaimedJob.succeed 61) _ 1 .succeeded (by decide) rfl
  have member : reclaimedJob.succeed 61 ∈ (oneJob (reclaimedJob.succeed 61)).jobs := by decide
  refine ⟨_, _, _, _, first, second, member, (ended_for_good first second ?_ member (.inl rfl)).1⟩
  rw [List.forall_mem_cons, List.forall_mem_singleton]
  refine ⟨trivial, fun _ j there _ _ => ?_⟩
  rw [List.mem_singleton.mp there]
  rfl

/-- The second worker succeeds and the first one fails; then a third one starts over. -/
theorem succeeded_job_restarted : ∃ earlier later w v, QueueRun 60 3 0 earlier w ∧
    Trace (QueueStep 60 3) w later v ∧ ∃ j ∈ w.db.jobs, j.status = .succeeded ∧
      (v.db.jobs.filter (·.id = j.id)).map Job.status = [.running] ∧
        ∃ label ∈ later, label.claims j.id = true := by
  have succeeds := reclaimed_run.trans
    (@late_mark _ (reclaimedJob.succeed 61) 2 .succeeded (by decide) rfl)
  have fails := @late_mark (reclaimedJob.succeed 61)
    ((reclaimedJob.succeed 61).fail .queued "timeout") 1 (.failed "timeout" false) (by decide) rfl
  have again : QueueStep 60 3 (reclaimedWorld (oneJob ((reclaimedJob.succeed 61).fail .queued
      "timeout")) []) (.claimed 3 _ _) _ := .claim_oneJob (by decide) (by decide)
  exact ⟨_, _, _, _, succeeds, fails.snoc again, _, List.mem_singleton_self _, rfl, by decide,
    _, List.mem_append_right _ (List.mem_singleton_self _), by decide⟩

/-! ### Attempts -/

/-- The visibility timeout hands out a job with an attempt left, and a mark that puts a
job back into the queue has counted all its attempts or leaves one. -/
def QueueLabel.WithinBudget (maxAttempts : Nat) : QueueLabel → Prop
  | .claimed _ job before => ∀ j ∈ before.jobs, j.id = job.id → j.status = .running →
      j.attempts < maxAttempts
  | .wrote pending d => refusedText pending.mark.texts = none → ∀ j ∈ d.jobs,
      j.id = pending.jobId → pending.status maxAttempts d = .queued → j.attempts < maxAttempts
  | _ => True

/-- A job is within its attempts. -/
def Job.WithinBudget (maxAttempts : Nat) (j : Job) : Prop :=
  j.attempts ≤ maxAttempts ∧ (j.status = .queued → j.attempts < maxAttempts)

theorem JobsMove.budget {jobs : List Job} (positive : 1 ≤ maxAttempts)
    (move : JobsMove visibilityTimeout maxAttempts d label jobs)
    (within : label.WithinBudget maxAttempts)
    (budget : ∀ j ∈ d.jobs, j.WithinBudget maxAttempts) :
    ∀ j ∈ jobs, j.WithinBudget maxAttempts := by
  cases move with
  | same => exact budget
  | enqueued =>
      rw [List.forall_mem_append, List.forall_mem_singleton]
      exact ⟨budget, Nat.zero_le _, fun _ => positive⟩
  | @claimed worker j began there ready =>
      have left : j.attempts < maxAttempts := by
        by_cases running : j.status = .running
        · exact within j there rfl running
        · refine (budget j there).2 ?_
          simpa [claimable, running] using ready
      intro k hk
      obtain rfl | ⟨hk, _⟩ := mem_replaceRow hk
      · exact ⟨left, by simp [Job.claimed]⟩
      · exact budget k hk
  | @wrote pending j k sent there target marked =>
      intro l hl
      obtain rfl | ⟨hl, _⟩ := mem_replaceRow hl
      · rw [Job.WithinBudget]
        rw [marked.attempts, marked.status]
        exact ⟨(budget j there).1, within sent j there target⟩
      · exact budget l hl

/-- Every claim of a job is on its record. -/
theorem JobsMove.counts {jobs : List Job}
    (move : JobsMove visibilityTimeout maxAttempts d label jobs) (ids : Keyed Job.id d.jobs)
    (member : job ∈ d.jobs) : ∃ k ∈ jobs, k.id = job.id ∧
      job.attempts + (if label.claims job.id then 1 else 0) ≤ k.attempts := by
  cases move with
  | same unclaimed => exact ⟨job, member, rfl, by simp [unclaimed]⟩
  | enqueued => exact ⟨job, List.mem_append_left _ member, rfl, by simp [QueueLabel.claims]⟩
  | @claimed worker j began there ready =>
      by_cases same : j.id = job.id
      · obtain rfl := ids.eq_of_key there member same
        exact ⟨j.claimed began, after_mem_replaceRow member rfl, rfl, by
          simp [QueueLabel.claims, Job.claimed]⟩
      · refine ⟨job, mem_replaceRow_of_ne member fun h => same h.symm, rfl, ?_⟩
        have other : (j.claimed began).id ≠ job.id := same
        simp [QueueLabel.claims, other]
  | @wrote pending j k sent there target marked =>
      by_cases same : j.id = job.id
      · obtain rfl := ids.eq_of_key there member same
        refine ⟨k, after_mem_replaceRow member rfl, marked.id, ?_⟩
        simp [QueueLabel.claims, marked.attempts]
      · exact ⟨job, mem_replaceRow_of_ne member fun h => same h.symm, rfl, by
          simp [QueueLabel.claims]⟩

theorem JobsMove.unclaimed {jobs : List Job}
    (move : JobsMove visibilityTimeout maxAttempts d label jobs)
    (absent : ∀ j ∈ d.jobs, j.id ≠ id) : label.claims id = false := by
  cases move with
  | same unclaimed => exact unclaimed id
  | enqueued | wrote => rfl
  | @claimed _ j began there =>
      have other : (j.claimed began).id ≠ id := absent j there
      exact decide_eq_false other

theorem JobsMove.attemptsOf (move : JobsMove visibilityTimeout maxAttempts d label db.jobs)
    (ids : Keyed Job.id d.jobs) :
    attemptsOf id d + (if label.claims id then 1 else 0) ≤ attemptsOf id db := by
  by_cases present : ∃ j ∈ d.jobs, j.id = id
  · obtain ⟨j, member, rfl⟩ := present
    obtain ⟨k, there, same, counted⟩ := move.counts ids member
    rw [attemptsOf_member ids member, ← same, attemptsOf_member (move.ids ids) there, same]
    exact counted
  · have absent : ∀ j ∈ d.jobs, j.id ≠ id := fun j hj same => present ⟨j, hj, same⟩
    rw [attemptsOf_absent absent, move.unclaimed absent]
    exact Nat.zero_le _

/-- A job is claimed at most as often as it may be attempted, as long as neither the
visibility timeout nor a stale count brings it back without an attempt left. -/
theorem claims_bounded {start : Time} {labels : List QueueLabel} (positive : 1 ≤ maxAttempts)
    (run : QueueRun visibilityTimeout maxAttempts start labels w)
    (within : ∀ label ∈ labels, label.WithinBudget maxAttempts) (id : Uuid) :
    labels.countP (·.claims id) ≤ maxAttempts := by
  obtain ⟨⟨sound, budget⟩, counted⟩ := run.countP_le
    (P := fun w => w.Sound maxAttempts ∧ ∀ j ∈ w.db.jobs, j.WithinBudget maxAttempts)
    (fun label => label.claims id) (fun w => attemptsOf id w.db) within
    ⟨⟨keyed_nil, by simp⟩, by simp [Database.empty]⟩ (by
      rintro a label b step within ⟨sound, budget⟩
      have move := step.moves sound
      exact ⟨⟨step.sound sound, move.budget positive within budget⟩, move.attemptsOf sound.ids⟩)
  refine (Nat.le_of_add_left_le counted).trans ?_
  by_cases present : ∃ j ∈ w.db.jobs, j.id = id
  · obtain ⟨j, member, rfl⟩ := present
    rw [attemptsOf_member sound.ids member]
    exact (budget j member).1
  · rw [attemptsOf_absent fun j hj same => present ⟨j, hj, same⟩]
    exact Nat.zero_le _

/-- Two claims, of which the second one ends in a failure with an attempt left. -/
theorem claims_bounded_retried : ∃ labels w, QueueRun 60 3 0 labels w ∧
    (w.db.jobs.map fun j => (j.status, j.attempts)) = [(.queued, 2)] ∧
      labels.countP (·.claims 1) ≤ 3 := by
  have run := reclaimed_run.trans (@late_mark _ (reclaimedJob.fail .queued "timeout") 2
    (.failed "timeout" false) (by decide) rfl)
  refine ⟨_, _, run, rfl, claims_bounded (by decide) run ?_ 1⟩
  rw [List.forall_mem_append]
  constructor
  · simp [reclaimedLabels, QueueLabel.WithinBudget, oneJob, loneJob, newJob, Job.claimed]
  · simp [QueueLabel.WithinBudget, oneJob, reclaimedJob, loneJob, newJob, Job.claimed]

/-- Every worker that takes the job dies, and after each one it is handed out again. -/
theorem claims_unbounded (n : Nat) : ∃ labels now claims, ∃ j : Job,
    QueueRun 60 maxAttempts 0 labels ⟨oneJob (j.claimed now), now, claims, []⟩ ∧
      j.id = 1 ∧ (j.kind = .extract ↔ j.documentId.isSome = true) ∧
        labels.countP (·.claims 1) = n + 1 := by
  induction n with
  | zero =>
      have first : QueueStep 60 maxAttempts ⟨oneJob loneJob, 0, [], []⟩
          (.claimed 1 (loneJob.claimed 0) (oneJob loneJob))
          ⟨oneJob (loneJob.claimed 0), 0, [(1, 1)], []⟩ := .claim_oneJob (by decide) (by decide)
      exact ⟨_, _, _, loneJob, enqueued_run.snoc first, rfl, by decide, by decide⟩
  | succ n ih =>
      obtain ⟨labels, now, claims, j, run, id, document, counted⟩ := ih
      have later : QueueStep 60 maxAttempts ⟨oneJob (j.claimed now), now, claims, []⟩ .passed
          ⟨oneJob (j.claimed now), now + 61, claims, []⟩ :=
        .pass (Int.le_add_of_nonneg_right (by decide))
      have overdue : claimable (now + 61) 60 (j.claimed now) = true := by
        have before : now < now + 61 - 60 := by linarith
        simp [claimable, Job.claimed, before]
      have again : QueueStep 60 maxAttempts ⟨oneJob (j.claimed now), now + 61, claims, []⟩
          (.claimed 1 ((j.claimed now).claimed (now + 61)) (oneJob (j.claimed now)))
          ⟨oneJob ((j.claimed now).claimed (now + 61)), now + 61, (1, j.id) :: claims, []⟩ :=
        .claim_oneJob overdue document
      refine ⟨_, _, _, j.claimed now, (run.snoc later).snoc again, id, document, ?_⟩
      have claims : QueueLabel.claims 1 (.claimed 1 ((j.claimed now).claimed (now + 61))
          (oneJob (j.claimed now))) = true := decide_eq_true id
      rw [List.countP_append, List.countP_append, counted, List.countP_singleton,
        List.countP_singleton, claims]
      rfl

theorem job_claimed_past_budget : ∃ labels w, QueueRun 60 3 0 labels w ∧
    3 < labels.countP (·.claims 1) := by
  obtain ⟨labels, now, claims, j, run, _, _, counted⟩ := @claims_unbounded 3 3
  exact ⟨labels, _, run, by omega⟩

end IncidentPipeline
