import IncidentPipeline.Extract.Extractor
import IncidentPipeline.Review.Fields

/-!
# Extracting a document

`extract/pipeline`: the row of an extraction, complete or failed, and the review rows
that go with a complete one. The `derived` column, which nothing here reads, is left
out: its computation cannot fail on a record that has been validated, as
`extract_derives` shows.
-/

namespace IncidentPipeline

open Pydantic Python Transactions

structure ExtractOutcome where
  extractionId : Uuid
  documentId : Uuid
  wasDuplicate : Bool
  attempts : Nat

/-- The random identifiers that one call draws. -/
structure ExtractIds where
  extraction : Uuid
  failed : Uuid
  reviews : Nat → Uuid

/-- The texts of the columns that name the configuration. -/
def identityTexts (client : LLMClient) : List String :=
  [schemaVersion, client.provider, client.model, client.thinking, client.runId]

/-- Whether a row is a complete extraction of the document under the configuration. -/
def Extraction.isCompleteFor (x : Extraction) (client : LLMClient) (documentId : Uuid) : Bool :=
  x.identity = (documentId, IncidentPipeline.schemaVersion, client.provider, client.model,
    client.thinking, client.runId) && x.status = .complete

/-- JSON has no NaN, and `model_dump_json` writes `null` for it. -/
def dumpFloat : Json → Json
  | .nonFinite _ => .null
  | v => v

/-- `confidence.model_dump_json()`. The fields of the record are no floats. -/
def dumpConfidence : Json → Json
  | .obj scores => .obj (scores.map fun score => (score.1, dumpFloat score.2))
  | v => v

def completeExtraction (id : Uuid) (now : Time) (client : LLMClient) (documentId : Uuid)
    (record confidence : Json) (attempts : List Attempt) : Extraction where
  id := id
  documentId := documentId
  schemaVersion := schemaVersion
  provider := client.provider
  model := client.model
  thinking := client.thinking
  runId := client.runId
  status := .complete
  record := some record
  perFieldConfidence := some (dumpConfidence confidence)
  confidenceSource := "self_report"
  attempts := attempts.length
  attemptLog := attempts
  usage := usageTotals attempts
  error := none
  errorKind := none
  createdAt := now

/-- `f"{type(error).__name__}: {error}"`. -/
def errorText (e : Exc) : String := e.cls.name ++ ": " ++ e.message

def failedExtraction (id : Uuid) (now : Time) (client : LLMClient) (documentId : Uuid)
    (error : Exc) (kind : ErrorKind) (attempts : List Attempt) : Extraction where
  id := id
  documentId := documentId
  schemaVersion := schemaVersion
  provider := client.provider
  model := client.model
  thinking := client.thinking
  runId := client.runId
  status := .failed
  record := none
  perFieldConfidence := none
  confidenceSource := "self_report"
  attempts := attempts.length
  attemptLog := attempts
  usage := usageTotals attempts
  error := some (errorText error)
  errorKind := some kind
  createdAt := now

/-- The JSONB columns are `record`, `per_field_confidence`, `attempt_log`, `usage`. -/
def Extraction.jsonHasNul (x : Extraction) : Bool :=
  x.record.any IncidentPipeline.jsonHasNul ||
    x.perFieldConfidence.any IncidentPipeline.jsonHasNul || x.attemptLog.any Attempt.hasNul ||
    (Dict.keys x.usage).any hasNul

def insertExtractionSql (row : Extraction) : Sql Unit :=
  ⟨refusedText ([row.schemaVersion, row.provider, row.model, row.thinking, row.runId] ++
      row.error.toList), fun _ _ =>
    if row.jsonHasNul then .error unsupportedEscape else .ok ((), [.insertExtraction row])⟩

/-- The kind and the attempts that a failed row records for what the loop raised. -/
def failureOf (e : Exc) : ErrorKind × List Attempt :=
  if e.cls.isExtractionError then
    (if e.cls = .transientExtractionError then .transient else .permanent, e.attempts)
  else (.unexpected, [])

/-- The metadata title wins over what the model wrote. -/
def overrideTitle (title : Option String) (record : Json) : Json :=
  match title, record with
  | some t, .obj members =>
      if t = "" then .obj members
      else .obj (Dict.set (Dict.set members "title" (.str t)) "title_source"
        (.str "document_metadata"))
  | _, record => record

/-- Texts are of Unicode scalar values, so that `model_dump_json` does not raise: a lone surrogate,
which `json.loads` lets through and the dump refuses, is no text of the model. -/
def extractDocument (rt : Runtime) (ids : ExtractIds) (now : Time) (client : LLMClient)
    (maxAttempts : Nat) (documentId : Uuid) : Db ExtractOutcome := do
  let existing ← .execute (select (identityTexts client) fun d =>
    d.extractions.find? (·.isCompleteFor client documentId))
  match existing with
  | some row => return ⟨row.id, documentId, true, row.attempts⟩
  | none =>
      let doc ← .execute (select [] fun d => d.documents.find? (·.id = documentId))
      match doc with
      | none =>
          .raise ⟨.documentNotFoundError,
            "document " ++ toString documentId ++ " does not exist", []⟩
      | some doc =>
          match extract rt client maxAttempts doc.text doc.title doc.sourceUrl with
          | .error e => do
              .execute (insertExtractionSql
                (failedExtraction ids.failed now client documentId e (failureOf e).1
                  (failureOf e).2))
              .raise e
          | .ok result => do
              let record := overrideTitle doc.title (memberOf result.output "record")
              let confidence := memberOf result.output "confidence"
              .execute (insertExtractionSql
                (completeExtraction ids.extraction now client documentId record confidence
                  result.attempts))
              let _ ← createFieldReviews ids.reviews now ids.extraction record confidence
              return ⟨ids.extraction, documentId, false, result.attempts.length⟩

/-- `extract_document` once the document has been read. -/
def extractStored (rt : Runtime) (ids : ExtractIds) (now : Time) (client : LLMClient)
    (maxAttempts : Nat) (documentId : Uuid) (doc : Document) : Db ExtractOutcome :=
  match extract rt client maxAttempts doc.text doc.title doc.sourceUrl with
  | .error e =>
      (Prog.execute (insertExtractionSql (failedExtraction ids.failed now client documentId e
        (failureOf e).1 (failureOf e).2))).bind fun _ => .raise e
  | .ok result =>
      (Prog.execute (insertExtractionSql (completeExtraction ids.extraction now client documentId
        (overrideTitle doc.title (memberOf result.output "record"))
        (memberOf result.output "confidence") result.attempts))).bind fun _ =>
          (createFieldReviews ids.reviews now ids.extraction
            (overrideTitle doc.title (memberOf result.output "record"))
            (memberOf result.output "confidence")).bind fun _ =>
              .ret (.ok ⟨ids.extraction, documentId, false, result.attempts.length⟩)

theorem extractDocument_eq (rt : Runtime) (ids : ExtractIds) (now : Time) (client : LLMClient)
    (maxAttempts : Nat) (documentId : Uuid) :
    extractDocument rt ids now client maxAttempts documentId =
      (Prog.execute (select (identityTexts client) fun d =>
        d.extractions.find? (·.isCompleteFor client documentId))).bind fun existing =>
          existing.elim
            ((Prog.execute (select [] fun d => d.documents.find? (·.id = documentId))).bind
              fun doc => doc.elim
                (.raise ⟨.documentNotFoundError,
                  "document " ++ toString documentId ++ " does not exist", []⟩)
                (extractStored rt ids now client maxAttempts documentId))
            fun row => .ret (.ok ⟨row.id, documentId, true, row.attempts⟩) := by
  rw [extractDocument]
  refine congrArg (Prog.bind _) (funext fun existing => ?_)
  cases existing with
  | some row => rfl
  | none =>
      show Prog.bind _ _ = Prog.bind _ _
      refine congrArg (Prog.bind _) (funext fun doc => ?_)
      cases doc with
      | none => rfl
      | some doc =>
          show _ = extractStored rt ids now client maxAttempts documentId doc
          rw [extractStored]
          dsimp only
          cases extract rt client maxAttempts doc.text doc.title doc.sourceUrl <;> rfl

/-- The row operations of a call whose loop has ended. -/
def ExtractionRow (ids : ExtractIds) (now : Time) (client : LLMClient) (documentId : Uuid)
    (outcome : Except Exc ExtractionResult) : RowOp → Prop
  | .insertExtraction row =>
      match outcome with
      | .error e => row = failedExtraction ids.failed now client documentId e (failureOf e).1
          (failureOf e).2
      | .ok result => ∃ record,
          row = completeExtraction ids.extraction now client documentId record
            (memberOf result.output "confidence") result.attempts
  | .insertFieldReview _ => True
  | _ => False

theorem writes_insertExtraction {P : RowOp → Prop} {row : Extraction}
    (holds : P (.insertExtraction row)) :
    (Prog.execute (insertExtractionSql row) : Db Unit).Writes P := by
  apply Prog.writes_execute
  intro context d reply ops answer o ho
  simp only [insertExtractionSql] at answer
  split at answer <;> cases answer
  exact List.mem_singleton.mp ho ▸ holds

theorem writes_createFieldReviews {P : RowOp → Prop} {ids : Nat → Uuid} {now : Time} {id : Uuid}
    {record confidence : Json} (holds : ∀ row, P (.insertFieldReview row)) :
    (createFieldReviews ids now id record confidence).Writes P := by
  refine Prog.writes_bind (Prog.writes_execute ?_) fun _ => trivial
  intro context d reply ops answer o ho
  simp only [insertFieldReviewsSql] at answer
  split at answer <;> cases answer
  obtain ⟨row, _, rfl⟩ := List.mem_map.mp ho
  exact holds row

theorem extractStored_writes (rt : Runtime) (ids : ExtractIds) (now : Time) (client : LLMClient)
    (maxAttempts : Nat) (documentId : Uuid) (doc : Document) :
    (extractStored rt ids now client maxAttempts documentId doc).Writes
      (ExtractionRow ids now client documentId
        (extract rt client maxAttempts doc.text doc.title doc.sourceUrl)) := by
  rw [extractStored]
  cases extract rt client maxAttempts doc.text doc.title doc.sourceUrl with
  | error e => exact Prog.writes_bind (writes_insertExtraction rfl) fun _ => trivial
  | ok result =>
      refine Prog.writes_bind (writes_insertExtraction ⟨_, rfl⟩) fun _ => ?_
      exact Prog.writes_bind (writes_createFieldReviews fun _ => trivial) fun _ => trivial

/-! ### What a complete row holds -/

/-- A field that a shape asks for is there. -/
theorem member_of_shape {name : String} {fields : List (FieldInfo Validator)} {v : Json}
    (shape : (Ty.model name fields).Shape v) (nodup : (fields.map FieldInfo.name).Nodup)
    {field : String} (named : field ∈ fields.map FieldInfo.name) :
    ∃ f ∈ fields, f.name = field ∧ ∃ w, v.member? field = some w ∧ f.annotation.Shape w ∧
      f.metadata.Meets w := by
  obtain ⟨members, rfl, shape⟩ := shape
  obtain ⟨f, hf, rfl⟩ := List.mem_map.mp named
  obtain ⟨w, found, typed, meets⟩ := Ty.get?_of_shapeFields shape nodup hf
  exact ⟨f, hf, rfl, w, found, typed, meets⟩

/-- The title from the document's metadata takes no field away. -/
theorem overrideTitle_member {title : Option String} {record : Json} {field : String}
    (found : ∃ value, record.member? field = some value) :
    ∃ value, (overrideTitle title record).member? field = some value := by
  unfold overrideTitle
  split
  · next t members =>
      split
      · exact found
      · show ∃ value, Dict.get? _ field = some value
        rw [Dict.get?_set, Dict.get?_set]
        split
        · exact ⟨_, rfl⟩
        · split
          · exact ⟨_, rfl⟩
          · exact found
  · exact found

/-- A confidence that passes validation is a number or NaN. -/
theorem score_of_shape {v : Json} (typed : (Ty.float : Ty Validator).Shape v)
    (meets : unitInterval.Meets v) : (∃ q, v = .num q) ∨ v = .nonFinite .nan := by
  obtain number | ⟨x, rfl⟩ := typed
  · exact .inl number
  · obtain ⟨low, high⟩ := meets
    cases x with
    | nan => exact .inr rfl
    | infinity => cases low rfl
    | negInfinity => cases high rfl

/-- What the loop returns has a value and a score for every field of the record. -/
theorem extract_filled {rt : Runtime} {client : LLMClient} {maxAttempts : Nat}
    {documentText sourceUrl : String} {documentTitle : Option String} {result : ExtractionResult}
    (h : extract rt client maxAttempts documentText documentTitle sourceUrl = .ok result) :
    ∀ field ∈ recordFields,
      (∃ value, (memberOf result.output "record").member? field = some value) ∧
        ∃ score, (memberOf result.output "confidence").member? field = some score ∧
          ((∃ q, score = .num q) ∨ score = .nonFinite .nan) := by
  obtain ⟨data, valid⟩ := extract_validated h
  have shape := Ty.shape_of_validate (validators_preserving rt) extractionOutput valid
  obtain ⟨_, same, record, _, rfl, typed, _, confidence, _, rfl, scored, _, rfl⟩ := shape
  rw [same]
  intro field member
  constructor
  · obtain ⟨_, _, _, value, found, _⟩ := member_of_shape typed recordFields_nodup member
    exact ⟨value, found⟩
  · obtain ⟨fields, model, names, floats⟩ := fieldConfidence_fields
    rw [model] at scored
    obtain ⟨f, hf, _, score, found, number, meets⟩ :=
      member_of_shape scored (names ▸ recordFields_nodup) (names ▸ member)
    rw [(floats f hf).1] at meets
    rw [(floats f hf).2] at number
    exact ⟨score, found, score_of_shape number meets⟩

/-! ### The scores of a complete row -/

theorem member?_dumpConfidence (confidence : Json) (field : String) :
    (dumpConfidence confidence).member? field = (confidence.member? field).map dumpFloat := by
  cases confidence with
  | obj scores =>
      show Dict.get? (scores.map fun score => (score.1, dumpFloat score.2)) field =
        (Dict.get? scores field).map dumpFloat
      induction scores with
      | nil => rfl
      | cons score rest ih =>
          obtain ⟨key, v⟩ := score
          rw [List.map_cons, Dict.get?_cons, Dict.get?_cons, ih]
          split <;> rfl
  | _ => rfl

/-- What the row says of a field is what `create_field_reviews` makes of the score, except
that NaN is no number in it. -/
@[simp] theorem numberOf_dumpConfidence (confidence : Json) (field : String) :
    numberOf (memberOf (dumpConfidence confidence) field) =
      numberOf (memberOf confidence field) := by
  rw [memberOf, memberOf, member?_dumpConfidence]
  cases confidence.member? field with
  | none => rfl
  | some v => cases v <;> rfl

end IncidentPipeline
