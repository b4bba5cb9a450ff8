import IncidentPipeline.Foundation.Interleaving
import IncidentPipeline.Foundation.Table
import IncidentPipeline.Runtime

/-!
# The database schema

The five tables with their constraints, and the row operations that statements turn
into. A table is the list of its rows in the order in which they were inserted. The
`CHECK (... IN ...)` constraints on closed vocabularies are carried by the types.

PostgreSQL text holds no NUL character: the driver refuses such a parameter before
anything is sent. A JSONB value travels as text in which NUL is an escape, so there it
is the server that refuses.
-/

namespace IncidentPipeline

open Python Tables Transactions

abbrev Uuid := Nat

/-- A point in time, in some fixed unit. -/
abbrev Time := Int

abbrev Bytes := List UInt8

structure Source where
  id : Uuid
  url : String
  createdAt : Time
deriving DecidableEq, Repr

inductive DocFormat where
  | markdown
  | html
  | pdf
deriving DecidableEq, Repr

structure Document where
  id : Uuid
  sourceId : Uuid
  sourceUrl : String
  contentHash : String
  textHash : String
  format : DocFormat
  fetchedAt : Time
  storageBackend : String
  rawBytes : Bytes
  text : String
  title : Option String
  createdAt : Time
deriving DecidableEq, Repr

inductive JobStatus where
  | queued
  | running
  | succeeded
  | deadLetter
deriving DecidableEq, Repr

inductive JobKind where
  | ingest
  | extract
deriving DecidableEq, Repr

structure Job where
  id : Uuid
  sourceId : Uuid
  kind : JobKind
  documentId : Option Uuid
  status : JobStatus
  attempts : Nat
  createdAt : Time
  claimedAt : Option Time
  succeededAt : Option Time
  lastError : Option String
deriving DecidableEq, Repr

inductive ExtractionStatus where
  | complete
  | failed
deriving DecidableEq, Repr

inductive ErrorKind where
  | transient
  | permanent
  | unexpected
deriving DecidableEq, Repr

structure Extraction where
  id : Uuid
  documentId : Uuid
  schemaVersion : String
  provider : String
  model : String
  thinking : String
  runId : String
  status : ExtractionStatus
  record : Option Json
  perFieldConfidence : Option Json
  confidenceSource : String
  attempts : Nat
  attemptLog : List Attempt
  usage : Dict Int
  error : Option String
  errorKind : Option ErrorKind
  createdAt : Time

inductive ReviewState where
  | unreviewed
  | routed
  | reviewed
deriving DecidableEq, Repr

inductive ReviewDecision where
  | accepted
  | corrected
deriving DecidableEq, Repr

/-- A column of floats takes NaN as well, and sorts it behind every number. -/
abbrev Confidence := WithTop ℚ

structure FieldReview where
  id : Uuid
  extractionId : Uuid
  field : String
  confidence : Confidence
  modelValue : Json
  reviewState : ReviewState
  routedAt : Option Time
  skipCount : Nat
  lastSkippedAt : Option Time
  decision : Option ReviewDecision
  correctedValue : Option Json
  reviewer : Option String
  reviewerNote : Option String
  reviewedAt : Option Time
  createdAt : Time

structure Database where
  sources : List Source
  documents : List Document
  jobs : List Job
  extractions : List Extraction
  fieldReviews : List FieldReview

def Database.empty : Database := ⟨[], [], [], [], []⟩

/-! ### Constraints -/

/-- A constraint by name, and whether a row meets it. -/
abbrev Check := String × Bool

def firstViolated (checks : List Check) : Option String :=
  (checks.find? fun check => !check.2).map Prod.fst

theorem firstViolated_eq_none {checks : List Check} :
    firstViolated checks = none ↔ ∀ check ∈ checks, check.2 = true := by
  simp [firstViolated]

/-- The columns that make an extraction unique among the complete ones. -/
def Extraction.identity (x : Extraction) : Uuid × String × String × String × String × String :=
  (x.documentId, x.schemaVersion, x.provider, x.model, x.thinking, x.runId)

def Document.checks (d : Document) (others : List Document) : List Check :=
  [("documents_pkey", others.all (·.id ≠ d.id)),
    ("documents_content_hash_key", others.all (·.contentHash ≠ d.contentHash)),
    ("documents_text_hash_key", others.all (·.textHash ≠ d.textHash))]

def Job.checks (j : Job) (others : List Job) : List Check :=
  [("jobs_pkey", others.all (·.id ≠ j.id)),
    ("jobs_extract_has_document", decide ((j.kind = .extract) ↔ j.documentId.isSome = true))]

def Extraction.checks (x : Extraction) (others : List Extraction) : List Check :=
  [("extractions_pkey", others.all (·.id ≠ x.id)),
    ("extractions_complete_has_record",
      decide ((x.status = .complete) ↔ x.record.isSome = true)),
    ("ux_extractions_complete", x.status ≠ .complete ||
      others.all fun y => y.status ≠ .complete || y.identity ≠ x.identity)]

/-- The constraints on one row of `field_reviews`, whatever the other rows are. -/
def FieldReview.rowChecks (r : FieldReview) : List Check :=
  [("field_reviews_reviewed_is_complete",
      decide ((r.reviewState = .reviewed) ↔
        (r.decision.isSome ∧ r.reviewer.isSome ∧ r.reviewedAt.isSome))),
    ("field_reviews_unreviewed_has_no_decision",
      decide (r.reviewState = .reviewed ∨
        (r.decision.isNone ∧ r.reviewer.isNone ∧ r.reviewedAt.isNone))),
    ("field_reviews_corrected_has_value",
      decide ((r.decision = some .corrected) ↔ r.correctedValue.isSome = true)),
    ("field_reviews_routed_has_time",
      decide (r.reviewState ≠ .routed ∨ r.routedAt.isSome = true))]

def FieldReview.checks (r : FieldReview) (others : List FieldReview) : List Check :=
  [("field_reviews_pkey", others.all (·.id ≠ r.id)),
    ("field_reviews_extraction_field_key",
      others.all fun s => s.extractionId ≠ r.extractionId || s.field ≠ r.field)] ++ r.rowChecks

/-! ### Row operations -/

/-- A row inserted, or a row replaced by a new version of itself. -/
inductive RowOp where
  | insertSource (row : Source)
  | insertDocument (row : Document)
  | updateDocument (before after : Document)
  | insertJob (row : Job)
  | updateJob (before after : Job)
  | insertExtraction (row : Extraction)
  | insertFieldReview (row : FieldReview)
  | updateFieldReview (before after : FieldReview)

/-- What a row operation is checked against. -/
def RowOp.checks : RowOp → Database → List Check
  | .insertSource row, d => [("sources_pkey", d.sources.all (·.id ≠ row.id))]
  | .insertDocument row, d => row.checks d.documents
  | .updateDocument before after, d =>
      after.checks (otherRows Document.id before.id d.documents)
  | .insertJob row, d => row.checks d.jobs
  | .updateJob before after, d => after.checks (otherRows Job.id before.id d.jobs)
  | .insertExtraction row, d => row.checks d.extractions
  | .insertFieldReview row, d => row.checks d.fieldReviews
  | .updateFieldReview before after, d =>
      after.checks (otherRows FieldReview.id before.id d.fieldReviews)

/-- The tables after a row operation that violates nothing. -/
def RowOp.write : RowOp → Database → Database
  | .insertSource row, d => { d with sources := d.sources ++ [row] }
  | .insertDocument row, d => { d with documents := d.documents ++ [row] }
  | .updateDocument before after, d =>
      { d with documents := replaceRow Document.id before.id after d.documents }
  | .insertJob row, d => { d with jobs := d.jobs ++ [row] }
  | .updateJob before after, d => { d with jobs := replaceRow Job.id before.id after d.jobs }
  | .insertExtraction row, d => { d with extractions := d.extractions ++ [row] }
  | .insertFieldReview row, d => { d with fieldReviews := d.fieldReviews ++ [row] }
  | .updateFieldReview before after, d =>
      { d with fieldReviews := replaceRow FieldReview.id before.id after d.fieldReviews }

def databaseError (message : String) : Exc := ⟨.databaseError, message, []⟩

def constraintViolation (name : String) : Exc :=
  databaseError ("new row violates constraint " ++ name)

def RowOp.apply (op : RowOp) (d : Database) : Except Exc Database :=
  match firstViolated (op.checks d) with
  | some name => .error (constraintViolation name)
  | none => .ok (op.write d)

theorem RowOp.apply_eq_ok {op : RowOp} {d d' : Database} :
    op.apply d = .ok d' ↔ (∀ check ∈ op.checks d, check.2 = true) ∧ d' = op.write d := by
  rw [← firstViolated_eq_none, RowOp.apply]
  cases firstViolated (op.checks d) with
  | none => simp [eq_comm]
  | some name => simp

/-- The database server. -/
def postgres : Server Database RowOp Exc where
  apply := RowOp.apply
  inFailedTransaction :=
    databaseError
      "current transaction is aborted, commands ignored until end of transaction block"

/-! ### Parameters -/

def hasNul (s : String) : Bool := s.toList.contains '\x00'

/-- What the driver raises for text parameters, if one of them contains NUL. -/
def refusedText (texts : List String) : Option Exc :=
  if texts.any hasNul then
    some ⟨.other "DataError", "PostgreSQL text fields cannot contain NUL (0x00) bytes", []⟩
  else none

theorem refusedText_eq_none {texts : List String} :
    refusedText texts = none ↔ ∀ s ∈ texts, hasNul s = false := by
  simp [refusedText]

/-- A NUL in some string or key of a JSON value. -/
def jsonHasNul : Json → Bool
  | .str s => hasNul s
  | .arr items => anyItem items
  | .obj members => anyMember members
  | _ => false
where
  anyItem : List Json → Bool
    | [] => false
    | x :: rest => jsonHasNul x || anyItem rest
  anyMember : List (String × Json) → Bool
    | [] => false
    | (key, x) :: rest => hasNul key || jsonHasNul x || anyMember rest

/-- The server's error for a JSONB value with an escaped NUL. -/
def unsupportedEscape : Exc := databaseError "unsupported Unicode escape sequence"

def Attempt.hasNul (a : Attempt) : Bool :=
  IncidentPipeline.hasNul a.rawOutput || (a.validationError.any IncidentPipeline.hasNul) ||
    IncidentPipeline.hasNul a.model || (Dict.keys a.usage).any IncidentPipeline.hasNul

/-! ### Programs -/

/-- What a statement can depend on besides the rows it sees: the statement's snapshot
and the jobs whose rows other transactions have locked. -/
structure Context where
  snapshot : Database
  locked : List Uuid

abbrev Sql (ρ : Type) := Statement Context Database RowOp Exc ρ

abbrev Db (α : Type) := Prog Context Database RowOp Exc α

/-- A statement without text parameters. -/
def sql {ρ : Type} (run : Context → Database → Except Exc (ρ × List RowOp)) : Sql ρ :=
  ⟨none, run⟩

/-- A statement that only reads. -/
def select {ρ : Type} (texts : List String) (read : Database → ρ) : Sql ρ :=
  ⟨refusedText texts, fun _ d => .ok (read d, [])⟩

end IncidentPipeline
