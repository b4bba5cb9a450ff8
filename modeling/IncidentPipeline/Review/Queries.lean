import IncidentPipeline.Review.Fields
import IncidentPipeline.Review.Routing

/-!
# The review queue

The read side of `review/queries`: the rows that wait for a reviewer, joined to their
extraction and document, in the order in which they are presented.
-/

namespace IncidentPipeline

open Python Transactions

/-- `_QUEUE_ORDER`: `last_skipped_at ASC NULLS FIRST`, then the columns of the rank order. -/
def queueLe (collation : Collation) (a b : FieldReview) : Bool :=
  match a.lastSkippedAt, b.lastSkippedAt with
  | none, none => rankLe collation a b
  | none, some _ => true
  | some _, none => false
  | some s, some t => if s = t then rankLe collation a b else s < t

/-- A row of `_QUEUE_SELECT`'s join. -/
structure JoinedReview where
  review : FieldReview
  extraction : Extraction
  document : Document

/-- `field_reviews fr JOIN extractions e ON ... JOIN documents d ON ...`. -/
def joinedReviews (d : Database) : List JoinedReview :=
  d.fieldReviews.flatMap fun fr =>
    (d.extractions.filter (·.id = fr.extractionId)).flatMap fun e =>
      (d.documents.filter (·.id = e.documentId)).map fun document => ⟨fr, e, document⟩

structure QueuedField where
  id : Uuid
  extractionId : Uuid
  documentId : Uuid
  field : String
  confidence : Confidence
  modelValue : Json
  reviewState : ReviewState
  routedAt : Option Time
  skipCount : Nat
  lastSkippedAt : Option Time
  schemaVersion : String
  runId : String
  documentTitle : Option String
  sourceUrl : String

def JoinedReview.queued (row : JoinedReview) : QueuedField where
  id := row.review.id
  extractionId := row.review.extractionId
  documentId := row.extraction.documentId
  field := row.review.field
  confidence := row.review.confidence
  modelValue := row.review.modelValue
  reviewState := row.review.reviewState
  routedAt := row.review.routedAt
  skipCount := row.review.skipCount
  lastSkippedAt := row.review.lastSkippedAt
  schemaVersion := row.extraction.schemaVersion
  runId := row.extraction.runId
  documentTitle := row.document.title
  sourceUrl := row.document.sourceUrl

/-- The whole queue in its order. -/
def queueRows (collation : Collation) (d : Database) : List JoinedReview :=
  ((joinedReviews d).filter (·.review.reviewState = .routed)).mergeSort
    fun a b => queueLe collation a.review b.review

def listQueue (collation : Collation) (limit offset : Nat) : Db (List QueuedField) :=
  .execute (select [] fun d =>
    (((queueRows collation d).drop offset).take limit).map JoinedReview.queued)

def nextForReview (collation : Collation) : Db (Option QueuedField) := do
  let items ← listQueue collation 1 0
  return items.head?

def queueSize : Db Nat :=
  .execute (select [] fun d => d.fieldReviews.countP (·.reviewState = .routed))

/-- One field with everything a reviewer needs to judge it. -/
structure ReviewItem where
  review : FieldReview
  documentId : Uuid
  documentTitle : Option String
  sourceUrl : String
  documentText : String
  schemaVersion : String
  runId : String
  record : Option Json

def JoinedReview.item (row : JoinedReview) : ReviewItem where
  review := row.review
  documentId := row.extraction.documentId
  documentTitle := row.document.title
  sourceUrl := row.document.sourceUrl
  documentText := row.document.text
  schemaVersion := row.extraction.schemaVersion
  runId := row.extraction.runId
  record := row.extraction.record

def loadForReview (id : Uuid) : Db ReviewItem := do
  match ← .execute (select [] fun d => (joinedReviews d).find? (·.review.id = id)) with
  | none => .raise (fieldReviewNotFound id)
  | some row => return row.item

/-! ### The decisions -/

structure ReviewedField where
  id : Uuid
  extractionId : Uuid
  documentId : Uuid
  textHash : String
  sourceUrl : String
  documentTitle : Option String
  schemaVersion : String
  provider : String
  model : String
  thinking : String
  runId : String
  field : String
  confidence : Confidence
  modelValue : Json
  decision : Option ReviewDecision
  correctedValue : Option Json
  reviewer : Option String
  reviewerNote : Option String
  reviewedAt : Option Time
  routedAt : Option Time

def JoinedReview.reviewed (row : JoinedReview) : ReviewedField where
  id := row.review.id
  extractionId := row.review.extractionId
  documentId := row.extraction.documentId
  textHash := row.document.textHash
  sourceUrl := row.document.sourceUrl
  documentTitle := row.document.title
  schemaVersion := row.extraction.schemaVersion
  provider := row.extraction.provider
  model := row.extraction.model
  thinking := row.extraction.thinking
  runId := row.extraction.runId
  field := row.review.field
  confidence := row.review.confidence
  modelValue := row.review.modelValue
  decision := row.review.decision
  correctedValue := row.review.correctedValue
  reviewer := row.review.reviewer
  reviewerNote := row.review.reviewerNote
  reviewedAt := row.review.reviewedAt
  routedAt := row.review.routedAt

/-- The `WHERE` clauses: reviewed, and what the filters ask for. -/
def FieldReview.listed (decision : Option ReviewDecision) (field : Option String)
    (r : FieldReview) : Bool :=
  r.reviewState = .reviewed && decision.all (fun x => r.decision = some x) &&
    field.all (fun x => r.field = x)

/-- `ORDER BY fr.reviewed_at DESC, fr.field ASC`; a null time comes first. -/
def reviewedLe (collation : Collation) (a b : FieldReview) : Bool :=
  match a.reviewedAt, b.reviewedAt with
  | none, none => collation a.field b.field
  | none, some _ => true
  | some _, none => false
  | some s, some t => if s = t then collation a.field b.field else t < s

/-- The decisions that meet the filters, the latest first. -/
def reviewedRows (collation : Collation) (decision : Option ReviewDecision)
    (field : Option String) (d : Database) : List JoinedReview :=
  ((joinedReviews d).filter (·.review.listed decision field)).mergeSort
    fun a b => reviewedLe collation a.review b.review

def listReviewed (collation : Collation) (decision : Option ReviewDecision)
    (field : Option String) (limit offset : Nat) : Db (List ReviewedField) :=
  .execute (select field.toList fun d =>
    (((reviewedRows collation decision field d).drop offset).take limit).map
      JoinedReview.reviewed)

end IncidentPipeline
