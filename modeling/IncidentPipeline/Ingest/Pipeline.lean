import IncidentPipeline.Db.Schema
import IncidentPipeline.Foundation.Text

/-!
# Ingesting a source

`ingest/fetch`, `ingest/detect`, the dispatch of `ingest/parse`, and `ingest/pipeline`.
The HTTP client, the three format parsers and SHA-256 are given with the environment.
-/

namespace IncidentPipeline

open Python Transactions

/-- What `httpx.get` does: it times out, fails below HTTP, raises something else, or
returns a response. -/
inductive HttpResult where
  | timeout (text : String)
  | transport (text : String)
  | raised (e : Exc)
  | response (status : Nat) (url : String) (contentType : Option String) (content : Bytes)

structure FetchedDocument where
  url : String
  contentType : Option String
  rawBytes : Bytes

structure ParsedDocument where
  title : Option String
  text : String

/-- The world outside the database that one ingest meets. -/
structure IngestEnv where
  http : String → HttpResult
  parsers : DocFormat → Bytes → Except Exc ParsedDocument
  sha256 : Bytes → String
  repr : String → String
  fetchedAt : Time
  documentId : Uuid

/-! ### Fetching -/

/-- `_PERMANENT_STATUS_CODES`. -/
def permanentStatusCodes : List Nat := [400, 401, 403, 404, 405, 410, 451]

def fetch (http : String → HttpResult) (url : String) : Except Exc FetchedDocument :=
  match http url with
  | .timeout text =>
      .error ⟨.transientIngestError, "timeout fetching " ++ url ++ ": " ++ text, []⟩
  | .transport text =>
      .error ⟨.transientIngestError, "transport error fetching " ++ url ++ ": " ++ text, []⟩
  | .raised e => .error e
  | .response status finalUrl contentType content =>
      if status ∈ permanentStatusCodes then
        .error ⟨.permanentIngestError,
          "permanent HTTP error " ++ toString status ++ " fetching " ++ url, []⟩
      else if 400 ≤ status ∧ status ≤ 599 then
        .error ⟨.transientIngestError, "HTTP error " ++ toString status ++ " fetching " ++ url, []⟩
      else .ok ⟨finalUrl, contentType, content⟩

/-! ### Format detection -/

/-- The bytes of an ASCII literal. -/
def ascii (s : String) : Bytes := s.toList.map fun c => c.toNat.toUInt8

/-- `s.split(sep, 1)[0]`. -/
def beforeFirst (sep : Char) (s : String) : String :=
  String.ofList (s.toList.takeWhile (· ≠ sep))

def lowerByte (b : UInt8) : UInt8 := if 65 ≤ b ∧ b ≤ 90 then b + 32 else b

/-- `b.lstrip()` on bytes. -/
def lstripBytes (bs : Bytes) : Bytes := bs.dropWhile fun b => b = 32 || (9 ≤ b && b ≤ 13)

/-- The format that a recognized media type names. -/
def formatOfMediaType (contentType : String) : Option DocFormat :=
  let mediaType := lowerText (strip (beforeFirst ';' contentType))
  if mediaType = "application/pdf" then some .pdf
  else if mediaType ∈ ["text/html", "application/xhtml+xml"] then some .html
  else if mediaType ∈ ["text/markdown", "text/x-markdown"] then some .markdown
  else none

/-- The format that a URL's extension names. -/
def formatOfUrl (url : String) : Option DocFormat :=
  let path := (beforeFirst '#' (beforeFirst '?' (lowerText url))).toList
  let endsWith (suffix : String) : Bool := suffix.toList.isSuffixOf path
  if endsWith ".md" || endsWith ".markdown" then some .markdown
  else if endsWith ".pdf" then some .pdf
  else if endsWith ".html" || endsWith ".htm" then some .html
  else none

def pdfMagic : Bytes := ascii "%PDF-"

def detectFormat (repr : String → String) (url : String) (contentType : Option String)
    (rawBytes : Bytes) : Except Exc DocFormat :=
  match contentType.bind fun value => if value = "" then none else formatOfMediaType value with
  | some format => .ok format
  | none =>
      if pdfMagic.isPrefixOf rawBytes then .ok .pdf
      else
        match formatOfUrl url with
        | some format => .ok format
        | none =>
            let sniff := (lstripBytes (rawBytes.take 2048)).map lowerByte
            if (ascii "<!doctype html").isPrefixOf sniff || (ascii "<html").isPrefixOf sniff ||
                decide (ascii "<body" <:+: sniff) then .ok .html
            else if rawBytes ≠ [] ∧ ¬ (ascii "<").isPrefixOf sniff then .ok .markdown
            else
              .error ⟨.permanentIngestError,
                "could not detect a supported format for " ++ url ++ " (content_type=" ++
                  (match contentType with
                    | none => "None"
                    | some value => repr value) ++ ")", []⟩

/-! ### Parsing -/

def DocFormat.value : DocFormat → String
  | .markdown => "markdown"
  | .html => "html"
  | .pdf => "pdf"

/-- Whatever the format's parser does, a parse without text is an error. -/
def parseDocument (parsers : DocFormat → Bytes → Except Exc ParsedDocument) (rawBytes : Bytes)
    (format : DocFormat) : Except Exc ParsedDocument := do
  let parsed ← parsers format rawBytes
  if strip parsed.text = "" then
    throw ⟨.emptyExtractionError,
      format.value ++ " parsing produced no text (raw " ++ toString rawBytes.length ++ " bytes)",
      []⟩
  return parsed

/-! ### The pipeline -/

structure IngestResult where
  documentId : Uuid
  contentHash : String
  textHash : String
  format : DocFormat
  title : Option String
  textChars : Nat
  wasDuplicate : Bool
  provenanceUpdated : Bool

def textHashOf (sha256 : Bytes → String) (text : String) : String :=
  sha256 text.toUTF8.data.toList

def storageBackendName : String := "postgres"

/-- The Postgres backend stores the bytes themselves. -/
def saveRaw (rawBytes : Bytes) : Bytes := rawBytes

/-- The result for a document that is there already. -/
def Document.result (d : Document) (contentHash textHash : String) (moved : Bool) :
    IngestResult :=
  ⟨d.id, contentHash, textHash, d.format, d.title, d.text.length, true, moved⟩

/-- The row after a fetch with other bytes and the same text. -/
def Document.moved (d : Document) (env : IngestEnv) (fetched : FetchedDocument)
    (contentHash : String) : Document :=
  { d with
    sourceUrl := fetched.url
    fetchedAt := env.fetchedAt
    contentHash := contentHash
    rawBytes := saveRaw fetched.rawBytes
    storageBackend := storageBackendName }

/-- The row of a fetch with a new text. -/
def newDocument (env : IngestEnv) (now : Time) (sourceId : Uuid) (fetched : FetchedDocument)
    (format : DocFormat) (parsed : ParsedDocument) : Document :=
  ⟨env.documentId, sourceId, fetched.url, env.sha256 fetched.rawBytes,
    textHashOf env.sha256 parsed.text, format, env.fetchedAt, storageBackendName,
    saveRaw fetched.rawBytes, parsed.text, parsed.title, now⟩

def updateProvenanceSql (env : IngestEnv) (id : Uuid) (fetched : FetchedDocument)
    (contentHash : String) : Sql Unit :=
  ⟨refusedText [fetched.url, contentHash, storageBackendName], fun _ d =>
    .ok ((), (d.documents.filter (·.id = id)).map fun doc =>
      .updateDocument doc (doc.moved env fetched contentHash))⟩

def insertDocumentSql (row : Document) : Sql Unit :=
  ⟨refusedText ([row.sourceUrl, row.contentHash, row.textHash, row.format.value,
      row.storageBackend, row.text] ++ row.title.toList),
    fun _ _ => .ok ((), [.insertDocument row])⟩

def ingestSource (env : IngestEnv) (now : Time) (sourceId : Uuid) (sourceUrl : String) :
    Db IngestResult := do
  let fetched ← .ofExcept (fetch env.http sourceUrl)
  let contentHash := env.sha256 fetched.rawBytes
  let sameBytes ← .execute (select [contentHash] fun d =>
    d.documents.find? (·.contentHash = contentHash))
  match sameBytes with
  | some doc => return doc.result contentHash doc.textHash false
  | none =>
      let format ← .ofExcept (detectFormat env.repr fetched.url fetched.contentType fetched.rawBytes)
      let parsed ← .ofExcept (parseDocument env.parsers fetched.rawBytes format)
      let textHash := textHashOf env.sha256 parsed.text
      let sameText ← .execute (select [textHash] fun d =>
        d.documents.find? (·.textHash = textHash))
      match sameText with
      | some doc =>
          .execute (updateProvenanceSql env doc.id fetched contentHash)
          return doc.result contentHash textHash true
      | none =>
          let row := newDocument env now sourceId fetched format parsed
          .execute (insertDocumentSql row)
          return ⟨row.id, contentHash, textHash, format, parsed.title, parsed.text.length, false,
            false⟩

/-! ### Ingests whose fetch and parse succeed -/

/-- A recognized media type decides. -/
theorem detectFormat_of_mediaType {repr : String → String} {url value : String}
    {rawBytes : Bytes} {format : DocFormat} (given : value ≠ "")
    (recognized : formatOfMediaType value = some format) :
    detectFormat repr url (some value) rawBytes = .ok format := by
  unfold detectFormat
  rw [Option.bind_some, if_neg given, recognized]

/-- What an ingest sends if the document can be fetched and parsed. -/
def storeParsed (env : IngestEnv) (now : Time) (sourceId : Uuid) (fetched : FetchedDocument)
    (format : DocFormat) (parsed : ParsedDocument) : Db IngestResult := do
  let contentHash := env.sha256 fetched.rawBytes
  let sameBytes ← .execute (select [contentHash] fun d =>
    d.documents.find? (·.contentHash = contentHash))
  match sameBytes with
  | some doc => return doc.result contentHash doc.textHash false
  | none =>
      let textHash := textHashOf env.sha256 parsed.text
      let sameText ← .execute (select [textHash] fun d =>
        d.documents.find? (·.textHash = textHash))
      match sameText with
      | some doc =>
          .execute (updateProvenanceSql env doc.id fetched contentHash)
          return doc.result contentHash textHash true
      | none =>
          let row := newDocument env now sourceId fetched format parsed
          .execute (insertDocumentSql row)
          return ⟨row.id, contentHash, textHash, format, parsed.title, parsed.text.length, false,
            false⟩

theorem ingestSource_eq {env : IngestEnv} {url : String} {fetched : FetchedDocument}
    {format : DocFormat} {parsed : ParsedDocument} (now : Time) (sourceId : Uuid)
    (fetch : fetch env.http url = .ok fetched)
    (detect : detectFormat env.repr fetched.url fetched.contentType fetched.rawBytes = .ok format)
    (parse : parseDocument env.parsers fetched.rawBytes format = .ok parsed) :
    ingestSource env now sourceId url = storeParsed env now sourceId fetched format parsed := by
  unfold ingestSource storeParsed
  simp only [Prog.bind_eq, Prog.ofExcept, fetch, Prog.bind_ret_ok, detect, parse]

end IncidentPipeline
