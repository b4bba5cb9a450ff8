import IncidentPipeline.Extract.Pipeline
import IncidentPipeline.Ingest.Pipeline
import IncidentPipeline.Queue.PostgresQueue
import IncidentPipeline.Review.Routing

/-!
# The worker

`worker/main`: one job from the claim to its mark, and the registration of a source
from `api/main`. Each is the program of one transaction: `engine.begin()` commits when
it returns and rolls back when it raises.
-/

namespace IncidentPipeline

open Transactions

/-- The settings the worker reads. -/
structure Settings where
  jobVisibilityTimeout : Time
  jobMaxAttempts : Nat
  extractionMaxAttempts : Nat
  reviewConfidenceFloor : ℚ
  reviewBudget : Option Nat
  collation : Collation

/-- What one `run_once` meets outside the database: the start of its transaction, the
web, the model, and the random identifiers it draws. -/
structure JobEnv where
  now : Time
  ingest : IngestEnv
  extractJobId : Uuid
  rt : Runtime
  client : Except Exc LLMClient
  ids : ExtractIds

def processIngest (env : JobEnv) (job : Job) : Db Unit := do
  let source ← .execute (select [] fun d => d.sources.find? (·.id = job.sourceId))
  match source with
  | none => .raise ⟨.noResultFound, "No row was found when one was required", []⟩
  | some source =>
      let result ← ingestSource env.ingest env.now job.sourceId source.url
      let _ ← enqueue env.extractJobId env.now job.sourceId .extract (some result.documentId)
      return

/-- `assert job.document_id is not None`. -/
def missingDocument : Exc := ⟨.other "AssertionError", "", []⟩

def processExtract (cfg : Settings) (env : JobEnv) (job : Job) : Db Unit :=
  match job.documentId with
  | none => .raise missingDocument
  | some documentId => do
      let client ← .ofExcept env.client
      let outcome ← extractDocument env.rt env.ids env.now client cfg.extractionMaxAttempts
        documentId
      if outcome.wasDuplicate then return
      else
        let _ ← routePending cfg.collation env.now cfg.reviewConfidenceFloor
          (cfg.reviewBudget.map Int.ofNat)
        return

def processJob (cfg : Settings) (env : JobEnv) (job : Job) : Db Unit :=
  match job.kind with
  | .ingest => processIngest env job
  | .extract => processExtract cfg env job

/-- The end of `run_once` for a job whose stage ended in `ended`. -/
def finishJob (cfg : Settings) (now : Time) (job : Job) (ended : Except Exc Unit) : Db Bool :=
  match ended with
  | .error e => do
      markFailed cfg.jobMaxAttempts job.id e.message e.cls.isPermanentJobError
      return true
  | .ok () => do
      markSucceeded job.id now
      return true

def runOnce (cfg : Settings) (env : JobEnv) : Db Bool := do
  let job ← claimOne env.now cfg.jobVisibilityTimeout
  match job with
  | none => return false
  | some job =>
      let ended ← (processJob cfg env job).attempt
      finishJob cfg env.now job ended

/-! ### Registration -/

structure RegisterEnv where
  now : Time
  sourceId : Uuid
  jobId : Uuid

def insertSourceSql (row : Source) : Sql Unit :=
  ⟨refusedText [row.url], fun _ _ => .ok ((), [.insertSource row])⟩

def registerSource (env : RegisterEnv) (url : String) : Db (Uuid × Uuid) := do
  .execute (insertSourceSql ⟨env.sourceId, url, env.now⟩)
  let jobId ← enqueue env.jobId env.now env.sourceId .ingest none
  return (env.sourceId, jobId)

end IncidentPipeline
