import IncidentPipeline.Extract.Derive
import IncidentPipeline.Ingest.Pipeline
import IncidentPipeline.Worker.Main

/-!
# Seeding the corpus

`scripts/seed_corpus`: the entries of the manifest are ingested for real, each from a file or
over HTTP, and their extractions are replayed from the report of an earlier run. Every entry
has a transaction of its own. One that raises ends the script; otherwise a routing pass
follows. The `derived` column is left out, as in the pipeline: `recordedOutput_derives`.
-/

namespace IncidentPipeline.SeedCorpus

open Python Pydantic Transactions

structure ManifestDocument where
  id : String
  url : String
  format : String
  rawFile : Option String

/-- An extraction as the report has it. -/
structure ReportExtraction where
  status : ExtractionStatus
  schemaVersion : String
  provider : String
  model : String
  thinking : String
  runId : String
  record : Json
  perFieldConfidence : Json
  validationAttempts : Nat
  attemptLog : List Attempt
  usage : Dict Int
  /-- The report leaves the model's answers out. -/
  noOutput : ∀ a ∈ attemptLog, a.rawOutput = ""

structure ReportDocument where
  id : String
  /-- `document["text_hash"]`, of a document that was there. -/
  textHash : Option String
  extraction : Option ReportExtraction

/-- The world outside the database. `validationText` is the text of a `ValidationError`. -/
structure SeedWorld where
  readBytes : String → Except Exc Bytes
  http : String → HttpResult
  parsers : DocFormat → Bytes → Except Exc ParsedDocument
  sha256 : Bytes → String
  rt : Runtime
  validationText : List ErrorDetail → String

/-- The new identifiers and the time that one transaction is given. -/
structure Draw where
  sourceId : Uuid
  documentId : Uuid
  extractionId : Uuid
  reviews : Nat → Uuid
  now : Time
  fetchedAt : Time
  context : Context
  distinct : Function.Injective reviews

/-! ### Local files -/

/-- `_CONTENT_TYPES`. -/
def contentTypes : Dict String :=
  [("blog_html", "text/html"),
    ("vendor_post_event_summary_html", "text/html"),
    ("status_page_html", "text/html"),
    ("mailing_list_html", "text/html"),
    ("markdown_in_repo", "text/markdown"),
    ("pdf", "application/pdf")]

def localBodies (readBytes : String → Except Exc Bytes) (manifest : List ManifestDocument) :
    Except Exc (Dict (Bytes × String)) :=
  manifest.foldlM (fun bodies doc =>
    match doc.rawFile.filter (· ≠ "") with
    | none => .ok bodies
    | some rawFile => do
        let raw ← readBytes rawFile
        return bodies.set doc.url (raw, (contentTypes.get? doc.format).getD "text/html")) []

def localFetch (http : String → HttpResult) (bodies : Dict (Bytes × String)) (url : String) :
    Except Exc FetchedDocument :=
  match bodies.get? url with
  | some (raw, contentType) => .ok ⟨url, some contentType, raw⟩
  | none => fetch http url

/-- The client with which `fetch` is `patched_fetch`. -/
def patchedHttp (http : String → HttpResult) (bodies : Dict (Bytes × String)) (url : String) :
    HttpResult :=
  match bodies.get? url with
  | some (raw, contentType) => .response 200 url (some contentType) raw
  | none => http url

theorem fetch_patchedHttp (http : String → HttpResult) (bodies : Dict (Bytes × String))
    (url : String) : fetch (patchedHttp http bodies) url = localFetch http bodies url := by
  rw [localFetch]
  cases found : bodies.get? url with
  | some body =>
      have answer : patchedHttp http bodies url = .response 200 url (some body.2) body.1 := by
        rw [patchedHttp, found]
      rw [fetch, answer]
      rfl
  | none =>
      have answer : patchedHttp http bodies url = http url := by
        rw [patchedHttp, found]
      rw [fetch, fetch, answer]

def SeedWorld.patched (world : SeedWorld) (bodies : Dict (Bytes × String)) : SeedWorld :=
  { world with http := patchedHttp world.http bodies }

/-! ### One entry -/

def SeedWorld.env (world : SeedWorld) (draw : Draw) : IngestEnv :=
  ⟨world.http, world.parsers, world.sha256, world.rt.repr, draw.fetchedAt, draw.documentId⟩

/-- The source of a URL, registered if it is not there. -/
def seedSource (draw : Draw) (url : String) : Db Uuid := do
  let existing ← .execute (select [url] fun d => d.sources.find? (·.url = url))
  match existing with
  | some row => return row.id
  | none =>
      .execute (insertSourceSql ⟨draw.sourceId, url, draw.now⟩)
      return draw.sourceId

def seedSourceAndDocument (world : SeedWorld) (draw : Draw) (url : String) : Db Uuid := do
  let sourceId ← seedSource draw url
  let result ← ingestSource (world.env draw) draw.now sourceId url
  return result.documentId

/-- The texts of the columns that name the recorded configuration. -/
def ReportExtraction.texts (extraction : ReportExtraction) : List String :=
  [extraction.schemaVersion, extraction.provider, extraction.model, extraction.thinking,
    extraction.runId]

/-- Whether a row is a complete extraction of the document under that configuration. -/
def ReportExtraction.isReplayed (extraction : ReportExtraction) (documentId : Uuid)
    (x : Extraction) : Bool :=
  x.identity = (documentId, extraction.schemaVersion, extraction.provider, extraction.model,
    extraction.thinking, extraction.runId) && x.status = .complete

def ReportExtraction.row (extraction : ReportExtraction) (id documentId : Uuid) (now : Time)
    (output : Json) : Extraction where
  id := id
  documentId := documentId
  schemaVersion := extraction.schemaVersion
  provider := extraction.provider
  model := extraction.model
  thinking := extraction.thinking
  runId := extraction.runId
  status := .complete
  record := some (memberOf output "record")
  perFieldConfidence := some (dumpConfidence (memberOf output "confidence"))
  confidenceSource := "self_report"
  attempts := extraction.validationAttempts
  attemptLog := extraction.attemptLog
  usage := extraction.usage
  error := none
  errorKind := none
  createdAt := now

def oldSchema (rt : Runtime) (version : String) : Exc :=
  foreign "RuntimeError"
    ("extraction_run_12.json was written at schema " ++ rt.repr version ++
      ", but app.extract.schema.SCHEMA_VERSION is now " ++ rt.repr schemaVersion ++
      ". Re-run extraction (scripts/extraction_run.py) against the current schema and point " ++
      "RUN_REPORT at the new report before seeding.")

/-- The recorded values, validated against the current schema. -/
def recordedOutput (world : SeedWorld) (extraction : ReportExtraction) : Except Exc Json :=
  match extractionOutput.validate (validators world.rt)
      (.obj [("record", extraction.record), ("confidence", extraction.perFieldConfidence)]) with
  | .error errors => .error (foreign "ValidationError" (world.validationText errors))
  | .ok output =>
      if extraction.schemaVersion ≠ schemaVersion then
        .error (oldSchema world.rt extraction.schemaVersion)
      else .ok output

/-- `extraction["status"]` of a document without extraction. -/
def notSubscriptable : Exc := foreign "TypeError" "'NoneType' object is not subscriptable"

def replayExtraction (world : SeedWorld) (draw : Draw) (documentId : Uuid)
    (reportDoc : ReportDocument) : Db Unit :=
  match reportDoc.extraction with
  | none => .raise notSubscriptable
  | some extraction =>
      if extraction.status ≠ .complete then return
      else do
        let existing ← .execute (select extraction.texts fun d =>
          d.extractions.find? (extraction.isReplayed documentId))
        match existing with
        | some _ => return
        | none => do
            let output ← .ofExcept (recordedOutput world extraction)
            .execute (insertExtractionSql
              (extraction.row draw.extractionId documentId draw.now output))
            let _ ← createFieldReviews draw.reviews draw.now draw.extractionId
              (memberOf output "record") (memberOf output "confidence")
            return

/-- The transaction of one entry. -/
def seedEntry (world : SeedWorld) (draw : Draw) (doc : ManifestDocument)
    (reportDoc : ReportDocument) : Db Uuid := do
  let documentId ← seedSourceAndDocument world draw doc.url
  replayExtraction world draw documentId reportDoc
  return documentId

/-! ### The run -/

/-- A transaction that has committed. -/
structure Step where
  doc : ManifestDocument
  reportDoc : ReportDocument
  draw : Draw
  before : Database
  documentId : Uuid
  after : Database

structure Run (α : Type) where
  steps : List Step
  result : Except Exc α
  db : Database

/-- `{d["id"]: d for d in report["documents"]}`. -/
def reportById (documents : List ReportDocument) : Dict ReportDocument :=
  documents.foldl (fun byId d => byId.set d.id d) []

def seedAll (world : SeedWorld) (report : Dict ReportDocument) :
    List ManifestDocument → (Nat → Draw) → Database → Run Unit
  | [], _, d => ⟨[], .ok (), d⟩
  | doc :: rest, draws, d =>
      match report.get? doc.id with
      | none => seedAll world report rest (fun n => draws (n + 1)) d
      | some reportDoc =>
          match (seedEntry world (draws 0) doc reportDoc).transact postgres (draws 0).context d with
          | (.error e, d') => ⟨[], .error e, d'⟩
          | (.ok documentId, d') =>
              let later := seedAll world report rest (fun n => draws (n + 1)) d'
              ⟨⟨doc, reportDoc, draws 0, d, documentId, d'⟩ :: later.steps, later.result, later.db⟩

/-- What the pass at the end is given; the budget of the settings is not negative. -/
structure RoutingEnv where
  collation : Collation
  floor : ℚ
  budget : Option Nat
  now : Time
  context : Context

def RoutingEnv.program (routing : RoutingEnv) : Db RoutingResult :=
  routePending routing.collation routing.now routing.floor (routing.budget.map Int.ofNat)

def main (world : SeedWorld) (manifest : List ManifestDocument) (report : List ReportDocument)
    (draws : Nat → Draw) (routing : RoutingEnv) (d : Database) : Run RoutingResult :=
  match localBodies world.readBytes manifest with
  | .error e => ⟨[], .error e, d⟩
  | .ok bodies =>
      let seeded := seedAll (world.patched bodies) (reportById report) manifest draws d
      match seeded.result with
      | .error e => ⟨seeded.steps, .error e, seeded.db⟩
      | .ok () =>
          let (result, after) := routing.program.transact postgres routing.context seeded.db
          ⟨seeded.steps, result, after⟩

/-- What the script replays can store its durations. -/
theorem recordedOutput_derives {world : SeedWorld} {extraction : ReportExtraction} {output : Json}
    (recorded : recordedOutput world extraction = .ok output) :
    ∃ derived, deriveDurations world.rt (memberOf output "record") = .ok derived := by
  rw [recordedOutput] at recorded
  split at recorded
  · cases recorded
  · next validated valid =>
      split at recorded
      · cases recorded
      · cases recorded
        obtain ⟨derived, returned, _⟩ := (output_anchored valid).derives
        exact ⟨derived, returned⟩

end IncidentPipeline.SeedCorpus
