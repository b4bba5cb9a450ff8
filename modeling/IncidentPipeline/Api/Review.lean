import IncidentPipeline.Api.Auth
import IncidentPipeline.Foundation.Serial
import IncidentPipeline.Review.Candidates
import IncidentPipeline.Review.Context
import IncidentPipeline.Review.Queries
import IncidentPipeline.Worker.Main

/-!
# The review API

`api/review`: each handler with the transaction that it runs. The framework has checked
the parameters before a handler is called, so they come in the types that say so. A
handler that only reads leaves the tables out of its result.
-/

namespace IncidentPipeline.Api

open Python Transactions

/-- `limit` and `offset` of a listing, within what its `Query` allows. -/
structure QueryPage (most : Nat) where
  limit : Nat
  offset : Nat
  positive : 1 ≤ limit
  bounded : limit ≤ most

/-- What a request meets: the time at which its transaction starts, the context of its
statements, what `set_cookie` raises for a name that no header carries, and what the response
raises for a body with NaN in it, unless it writes null there. -/
structure RequestEnv where
  rt : Runtime
  now : Time
  context : Context
  cookieError : String → Option Exc
  nanError : Option Exc

/-- `with engine.connect()`: whatever the statements do, nothing is committed. -/
def reads {α : Type} (env : RequestEnv) (p : Db α) (d : Database) : Except Exc α :=
  (p.serial postgres env.context ⟨d, false⟩).1

/-- The answer with a body that shows these confidences. It is written when the transaction has
ended. -/
def jsonReply {α : Type} (env : RequestEnv) (confidences : List Confidence) (body : α) :
    Answer α :=
  match env.nanError with
  | none => .reply body
  | some e => if ⊤ ∈ confidences then .failed e else .reply body

theorem jsonReply_of_numbers {α : Type} {env : RequestEnv} {confidences : List Confidence}
    {body : α} (numbers : ⊤ ∉ confidences) : jsonReply env confidences body = .reply body := by
  rw [jsonReply]
  cases env.nanError with
  | none => rfl
  | some e => exact if_neg numbers

theorem jsonReply_cases {α : Type} (env : RequestEnv) (confidences : List Confidence) (body : α) :
    jsonReply env confidences body = .reply body ∨
      ∃ e, env.nanError = some e ∧ ⊤ ∈ confidences ∧
        jsonReply env confidences body = .failed e := by
  by_cases numbers : ⊤ ∈ confidences
  · cases raises : env.nanError with
    | none => simp [jsonReply, raises]
    | some e => simp [jsonReply, raises, numbers]
  · exact .inl (jsonReply_of_numbers numbers)

/-! ### The queue -/

structure QueueItem where
  id : Uuid
  extractionId : Uuid
  documentId : Uuid
  documentTitle : Option String
  sourceUrl : String
  schemaVersion : String
  runId : String
  field : String
  confidence : Confidence
  routedAt : Option Time
  skipCount : Nat

def QueueItem.fromQueued (i : QueuedField) : QueueItem where
  id := i.id
  extractionId := i.extractionId
  documentId := i.documentId
  documentTitle := i.documentTitle
  sourceUrl := i.sourceUrl
  schemaVersion := i.schemaVersion
  runId := i.runId
  field := i.field
  confidence := i.confidence
  routedAt := i.routedAt
  skipCount := i.skipCount

structure QueueResponse where
  size : Nat
  confidenceFloor : ℚ
  budget : Option Nat
  items : List QueueItem

def getQueue (cfg : Settings) (env : RequestEnv) (page : QueryPage 1000) (d : Database) :
    Answer QueueResponse :=
  let listing : Db (Nat × List QueuedField) := do
    let size ← queueSize
    let items ← listQueue cfg.collation page.limit page.offset
    return (size, items)
  match reads env listing d with
  | .ok (size, items) =>
      jsonReply env (items.map QueuedField.confidence)
        ⟨size, cfg.reviewConfidenceFloor, cfg.reviewBudget, items.map QueueItem.fromQueued⟩
  | .error e => .failed e

/-! ### One field -/

structure FieldReviewState where
  id : Uuid
  extractionId : Uuid
  field : String
  confidence : Confidence
  modelValue : Json
  reviewState : ReviewState
  routedAt : Option Time
  skipCount : Nat
  decision : Option ReviewDecision
  correctedValue : Option Json
  reviewer : Option String
  reviewerNote : Option String
  reviewedAt : Option Time

def FieldReviewState.fromReview (review : FieldReview) : FieldReviewState where
  id := review.id
  extractionId := review.extractionId
  field := review.field
  confidence := review.confidence
  modelValue := review.modelValue
  reviewState := review.reviewState
  routedAt := review.routedAt
  skipCount := review.skipCount
  decision := review.decision
  correctedValue := review.correctedValue
  reviewer := review.reviewer
  reviewerNote := review.reviewerNote
  reviewedAt := review.reviewedAt

structure FieldReviewDetail where
  state : FieldReviewState
  documentId : Uuid
  documentTitle : Option String
  sourceUrl : String
  schemaVersion : String
  runId : String
  candidates : List Candidate
  snippets : List Context.Snippet
  documentText : String

/-- The `HTTPException` that stands for an exception of a decision or a lookup; any other
exception leaves the handler. -/
def httpError {α : Type} (e : Exc) : Answer α :=
  match e.cls with
  | .fieldReviewNotFoundError => .refused 404 "field review not found"
  | .alreadyReviewedError => .refused 409 e.message
  | .notRoutedError => .refused 409 e.message
  | .invalidCorrectionError => .refused 422 e.message
  | _ => .failed e

/-- The cues of each field, and the case folding of the pattern matcher. -/
structure Matching where
  fieldCues : String → Option (List Cue)
  cases : Regex.Cases

/-- What `get_field` builds around the item. -/
def fieldDetail (matching : Matching) (item : ReviewItem) : Except Exc FieldReviewDetail := do
  let quotes ← Context.quotesFor item.review.field (membersOf (item.record.getD .null))
  let found ← Context.snippets matching.cases item.documentText quotes Context.defaultRadius
  match candidates matching.fieldCues item.review.field item.documentText with
  | none => .error ⟨.keyError, item.review.field, []⟩
  | some candidates =>
      return ⟨.fromReview item.review, item.documentId, item.documentTitle, item.sourceUrl,
        item.schemaVersion, item.runId, candidates, found, item.documentText⟩

def getField (matching : Matching) (env : RequestEnv) (id : Uuid) (d : Database) :
    Answer FieldReviewDetail :=
  match reads env (loadForReview id) d with
  | .error e => httpError e
  | .ok item =>
      match fieldDetail matching item with
      | .ok detail => jsonReply env [detail.state.confidence] detail
      | .error e => .failed e

/-! ### Decisions -/

/-- `corrected_value` is there if it is among the fields that were set. -/
structure DecisionRequest where
  action : Action
  reviewer : Option String
  correctedValue : Option Json
  note : Option String

def postDecision (env : RequestEnv) (id : Uuid) (body : DecisionRequest) (d : Database) :
    Answer FieldReviewState × Database :=
  if body.action = .correct ∧ body.correctedValue = none then
    (.refused 422 "correct requires corrected_value", d)
  else
    match (recordDecision env.rt env.now id body.action body.reviewer
        (body.correctedValue.getD .null) body.note).transact postgres env.context d with
    | (.ok review, d') => (jsonReply env [review.confidence] (.fromReview review), d')
    | (.error e, d') => (httpError e, d')

structure RouteResponse where
  floor : ℚ
  budget : Option Int
  eligible : Nat
  outstandingBefore : Nat
  routed : Nat
  fields : List RankedField

def postRoute (cfg : Settings) (env : RequestEnv) (d : Database) :
    Answer RouteResponse × Database :=
  match (routePending cfg.collation env.now cfg.reviewConfidenceFloor
      (cfg.reviewBudget.map Int.ofNat)).transact postgres env.context d with
  | (.ok result, d') =>
      (jsonReply env (result.routed.map RankedField.confidence)
        ⟨result.floor, result.budget, result.eligible, result.outstandingBefore,
          result.routed.length, result.routed⟩, d')
  | (.error e, d') => (.failed e, d')

/-! ### The decisions as gold-set input -/

/-- The response model wants a decision, a reviewer and a time. -/
structure ReviewedFieldOut where
  id : Uuid
  extractionId : Uuid
  documentId : Uuid
  textHash : String
  sourceUrl : String
  documentTitle : Option String
  schemaVersion : String
  provider : String
  model : String
  thinking : String
  runId : String
  field : String
  confidence : Confidence
  modelValue : Json
  decision : ReviewDecision
  correctedValue : Option Json
  reviewer : String
  reviewerNote : Option String
  reviewedAt : Time
  routedAt : Option Time

def ReviewedFieldOut.fromReviewed (i : ReviewedField) : Except Exc ReviewedFieldOut :=
  match i.decision, i.reviewer, i.reviewedAt with
  | some decision, some reviewer, some reviewedAt =>
      .ok
        { id := i.id
          extractionId := i.extractionId
          documentId := i.documentId
          textHash := i.textHash
          sourceUrl := i.sourceUrl
          documentTitle := i.documentTitle
          schemaVersion := i.schemaVersion
          provider := i.provider
          model := i.model
          thinking := i.thinking
          runId := i.runId
          field := i.field
          confidence := i.confidence
          modelValue := i.modelValue
          decision := decision
          correctedValue := i.correctedValue
          reviewer := reviewer
          reviewerNote := i.reviewerNote
          reviewedAt := reviewedAt
          routedAt := i.routedAt }
  | _, _, _ => .error (foreign "ValidationError" "")

/-- `corrected`, `accepted` or `all`. -/
structure CorrectionsResponse where
  decision : Option ReviewDecision
  count : Nat
  items : List ReviewedFieldOut

/-- `all` is the filter that is not there. -/
def getCorrections (cfg : Settings) (env : RequestEnv) (decision : Option ReviewDecision)
    (field : Option String) (page : QueryPage 10000) (d : Database) :
    Answer CorrectionsResponse :=
  match reads env (listReviewed cfg.collation decision field page.limit page.offset) d with
  | .error e => .failed e
  | .ok items =>
      match items.mapM ReviewedFieldOut.fromReviewed with
      | .ok out =>
          jsonReply env (out.map ReviewedFieldOut.confidence) ⟨decision, items.length, out⟩
      | .error e => .failed e

end IncidentPipeline.Api
