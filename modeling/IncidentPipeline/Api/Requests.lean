import IncidentPipeline.Api.ReviewUi
import IncidentPipeline.Foundation.Machine

/-!
# The process behind the routes

`api/main`: which handler a request reaches, and which ones are behind the gate. A request comes
with what the framework has taken from it; the two random identifiers of a registration come with
it too. `/metrics` and `/cost` are left out here.
-/

namespace IncidentPipeline.Api

open Python Transactions

structure RegisterSourceResponse where
  sourceId : Uuid
  jobId : Uuid
  status : JobStatus

/-- `POST /sources`. -/
def postSource (env : RequestEnv) (sourceId jobId : Uuid) (url : String) (d : Database) :
    Answer RegisterSourceResponse × Database :=
  match (registerSource ⟨env.now, sourceId, jobId⟩ url).transact postgres env.context d with
  | (.ok ids, d') => (.reply ⟨ids.1, ids.2, .queued⟩, d')
  | (.error e, d') => (.failed e, d')

structure JobStatusResponse where
  jobId : Uuid
  sourceId : Uuid
  status : JobStatus
  attempts : Nat

/-- `GET /jobs/{job_id}`. -/
def getJob (env : RequestEnv) (id : Uuid) (d : Database) : Answer JobStatusResponse :=
  match reads env (.execute (select [] fun d => d.jobs.find? (·.id = id))) d with
  | .error e => .failed e
  | .ok none => .refused 404 "job not found"
  | .ok (some job) => .reply ⟨job.id, job.sourceId, job.status, job.attempts⟩

/-! ### Routes -/

inductive Request where
  | health
  | postSource (sourceId jobId : Uuid) (url : String)
  | getJob (id : Uuid)
  | getQueue (page : QueryPage 1000)
  | getField (id : Uuid)
  | postDecision (id : Uuid) (body : DecisionRequest)
  | postRoute
  | getCorrections (decision : Option ReviewDecision) (field : Option String)
      (page : QueryPage 10000)
  | nextField (cookie : Option String)
  | oneField (cookie : Option String) (id : Uuid)
  | decideField (cookie : Option String) (id : Uuid) (data : Dict String)

/-- Whether the route is in one of the two routers that are included with the gate. -/
def Request.gated : Request → Bool
  | .health => false
  | .postSource .. => false
  | .getJob _ => false
  | _ => true

/-- The body of a response. -/
inductive Body where
  | health
  | source (response : RegisterSourceResponse)
  | job (response : JobStatusResponse)
  | queue (response : QueueResponse)
  | field (detail : FieldReviewDetail)
  | decision (state : FieldReviewState)
  | route (response : RouteResponse)
  | corrections (response : CorrectionsResponse)
  | ui (response : UiResponse)

def Answer.map {α β : Type} (f : α → β) : Answer α → Answer β
  | .reply body => .reply (f body)
  | .refused statusCode detail => .refused statusCode detail
  | .failed e => .failed e

/-- How the process is configured. -/
structure Site where
  cfg : Settings
  auth : AuthSettings
  matching : Matching

/-- The handler of the route. -/
def Site.handle (site : Site) (env : RequestEnv) (request : Request) (d : Database) :
    Answer Body × Database :=
  match request with
  | .health => (.reply .health, d)
  | .postSource sourceId jobId url => (postSource env sourceId jobId url d).map (.map .source) fun d' => d'
  | .getJob id => ((getJob env id d).map .job, d)
  | .getQueue page => ((getQueue site.cfg env page d).map .queue, d)
  | .getField id => ((getField site.matching env id d).map .field, d)
  | .postDecision id body => (postDecision env id body d).map (.map .decision) fun d' => d'
  | .postRoute => (postRoute site.cfg env d).map (.map .route) fun d' => d'
  | .getCorrections decision field page =>
      ((getCorrections site.cfg env decision field page d).map .corrections, d)
  | .nextField cookie => ((nextField site.cfg env cookie d).map .ui, d)
  | .oneField cookie id => ((oneField site.cfg env cookie id d).map .ui, d)
  | .decideField cookie id data =>
      (decideField site.cfg env cookie id data d).map (.map .ui) fun d' => d'

/-- A request as it comes in. -/
structure Incoming where
  env : RequestEnv
  credentials : Option Credentials
  request : Request

/-- What the dependency of the route answers before its handler is called. -/
def Site.gate (site : Site) (incoming : Incoming) : Answer Unit :=
  if incoming.request.gated then requireReviewAuth site.auth incoming.credentials else .reply ()

def Site.respond (site : Site) (incoming : Incoming) (d : Database) : Answer Body × Database :=
  match site.gate incoming with
  | .reply _ => site.handle incoming.env incoming.request d
  | .refused statusCode detail => (.refused statusCode detail, d)
  | .failed e => (.failed e, d)

end IncidentPipeline.Api
