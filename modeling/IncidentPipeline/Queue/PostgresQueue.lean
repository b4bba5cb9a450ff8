import IncidentPipeline.Db.Tables

/-!
# The job queue

`queue/postgres_queue`: the claim, the two marks and `enqueue`, each as the statements
it sends. `now` is the start of the transaction, as `now()` is.
-/

namespace IncidentPipeline

open Tables Transactions

/-- The `WHERE` clause of the claim. -/
def claimable (now visibilityTimeout : Time) (j : Job) : Bool :=
  j.status = .queued ||
    (j.status = .running && j.claimedAt.any (· < now - visibilityTimeout))

/-- The sub-select of the claim. The candidates come from the statement's snapshot in
the order of `created_at`; one whose row is locked is skipped, and the `WHERE` clause
is checked again on the row's latest version. -/
def claimTarget (now visibilityTimeout : Time) (context : Context) (d : Database) : Option Job :=
  ((context.snapshot.jobs.filter (claimable now visibilityTimeout)).mergeSort
    fun a b => a.createdAt ≤ b.createdAt).findSome? fun candidate =>
      if candidate.id ∈ context.locked then none
      else d.jobs.find? fun j => j.id = candidate.id && claimable now visibilityTimeout j

/-- The row version that the claim writes. -/
def Job.claimed (j : Job) (now : Time) : Job :=
  { j with status := .running, claimedAt := some now, attempts := j.attempts + 1 }

def claimSql (now visibilityTimeout : Time) : Sql (Option Job) :=
  sql fun context d =>
    match claimTarget now visibilityTimeout context d with
    | none => .ok (none, [])
    | some j => .ok (some (j.claimed now), [.updateJob j (j.claimed now)])

def claimOne (now visibilityTimeout : Time) : Db (Option Job) :=
  .execute (claimSql now visibilityTimeout)

/-- `UPDATE jobs SET ... WHERE id = :id`. -/
def updateJobSql (id : Uuid) (texts : List String) (set : Job → Job) : Sql Unit :=
  ⟨refusedText texts, fun _ d =>
    .ok ((), (d.jobs.filter (·.id = id)).map fun j => .updateJob j (set j))⟩

def Job.succeed (j : Job) (now : Time) : Job :=
  { j with status := .succeeded, succeededAt := some now }

/-- The row version of a failure that ends in the given status. -/
def Job.fail (j : Job) (status : JobStatus) (error : String) : Job :=
  { j with status := status, lastError := some error }

def markSucceeded (jobId : Uuid) (now : Time) : Db Unit :=
  .execute (updateJobSql jobId [] fun j => j.succeed now)

/-- The status that a transient failure leads to. -/
def retryStatus (attempts maxAttempts : Nat) : JobStatus :=
  if attempts ≥ maxAttempts then .deadLetter else .queued

def markFailed (maxAttempts : Nat) (jobId : Uuid) (error : String) (permanent : Bool) : Db Unit :=
  if permanent then
    .execute (updateJobSql jobId [error] fun j => j.fail .deadLetter error)
  else do
    let row ← .execute (select [] fun d => d.jobs.find? (·.id = jobId))
    let attempts := (row.map Job.attempts).getD 0
    .execute (updateJobSql jobId [error] fun j =>
      j.fail (retryStatus attempts maxAttempts) error)

/-- A job as `enqueue` inserts it. -/
def newJob (jobId sourceId : Uuid) (kind : JobKind) (documentId : Option Uuid) (now : Time) :
    Job :=
  ⟨jobId, sourceId, kind, documentId, .queued, 0, now, none, none, none⟩

def enqueue (jobId : Uuid) (now : Time) (sourceId : Uuid) (kind : JobKind)
    (documentId : Option Uuid) : Db Uuid :=
  if decide (kind = .extract) ≠ documentId.isSome then
    .raise ⟨.valueError, "document_id is required for extract jobs and forbidden otherwise", []⟩
  else do
    .execute (sql fun _ _ => .ok ((), [.insertJob (newJob jobId sourceId kind documentId now)]))
    return jobId

/-- A job that no claim takes. -/
def Job.Terminal (j : Job) : Prop := j.status = .succeeded ∨ j.status = .deadLetter

/-! ### What the queue looks up -/

theorem Job.Terminal.not_claimable {j : Job} {now visibilityTimeout : Time} (ended : j.Terminal) :
    claimable now visibilityTimeout j ≠ true := by
  obtain status | status := ended
  · simp [claimable, status]
  · simp [claimable, status]

theorem claimTarget_spec {d : Database} {job : Job} {now visibilityTimeout : Time}
    {context : Context}
    (found : claimTarget now visibilityTimeout context d = some job) :
    job ∈ d.jobs ∧ claimable now visibilityTimeout job = true ∧ job.id ∉ context.locked := by
  obtain ⟨_, candidate, _, _, target, _⟩ := List.findSome?_eq_some_iff.mp found
  split at target
  · cases target
  · next free =>
      have matched := List.find?_some target
      rw [Bool.and_eq_true, decide_eq_true_eq] at matched
      exact ⟨List.mem_of_find?_eq_some target, matched.2, matched.1 ▸ free⟩

/-- The number of attempts that are on record. -/
def attemptsOf (id : Uuid) (d : Database) : Nat :=
  ((d.jobs.find? (·.id = id)).map Job.attempts).getD 0

variable {d : Database} {j : Job} {id : Uuid}

theorem attemptsOf_member (ids : Keyed Job.id d.jobs) (member : j ∈ d.jobs) :
    attemptsOf j.id d = j.attempts := by
  rw [attemptsOf, ← List.head?_filter, ids.filter_key member]
  rfl

theorem attemptsOf_absent (absent : ∀ k ∈ d.jobs, k.id ≠ id) : attemptsOf id d = 0 := by
  have nothing : d.jobs.find? (·.id = id) = none := by
    rw [List.find?_eq_none]
    simpa using absent
  rw [attemptsOf, nothing]
  rfl

/-! ### A queue with one job that is ready -/

section Single

variable {context : Context} {now visibilityTimeout : Time}

theorem claimTarget_single
    (candidates : context.snapshot.jobs.filter (claimable now visibilityTimeout) = [j])
    (found : d.jobs.find? (fun k => k.id = j.id && claimable now visibilityTimeout k) = some j)
    (free : j.id ∉ context.locked) : claimTarget now visibilityTimeout context d = some j := by
  rw [claimTarget]
  rw [candidates, List.mergeSort_singleton]
  simp [free, found]

theorem replay_claim_single (jobs : d.jobs = [j])
    (document : j.kind = .extract ↔ j.documentId.isSome = true) :
    postgres.replay [.updateJob j (j.claimed now)] d =
      .ok { d with jobs := [j.claimed now] } := by
  refine replay_singleton.mpr ⟨?_, by simp [RowOp.write, replaceRow, jobs]⟩
  refine List.forall_mem_cons.mpr ⟨?_, List.forall_mem_singleton.mpr (decide_eq_true document)⟩
  simp [otherRows, jobs]

theorem serve_claim_single {d' : Database}
    (candidates : d.jobs.filter (claimable now visibilityTimeout) = [j])
    (found : d.jobs.find? (fun k => k.id = j.id && claimable now visibilityTimeout k) = some j)
    (written : postgres.replay [.updateJob j (j.claimed now)] d = .ok d') :
    postgres.serve (claimSql now visibilityTimeout) ⟨d, ⟨d, []⟩, none⟩ .fresh =
      (.ok (some (j.claimed now)), ⟨[.updateJob j (j.claimed now)], false⟩) := by
  have target : claimTarget now visibilityTimeout ⟨d, []⟩ d = some j :=
    claimTarget_single candidates found (by simp)
  simp [Server.serve, claimSql, sql, target, written]

end Single

end IncidentPipeline
