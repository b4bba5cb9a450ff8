import IncidentPipeline.Foundation.Serial
import IncidentPipeline.Ingest.Documents

/-!
# What an ingest does, as a function of the documents

`ingestPlan` reads what `_ingest_source` reads and says which of its three ends it reaches, or
what it raises. Neither depends on the identifier and the time that the ingest is given.
-/

namespace IncidentPipeline

open Tables Transactions

/-- The driver's check of the parameters. -/
def refuse (texts : List String) : Except Exc Unit :=
  match refusedText texts with
  | some e => .error e
  | none => .ok ()

theorem refuse_ok {texts : List String} : refuse texts = .ok () ↔ refusedText texts = none := by
  rw [refuse]
  cases refusedText texts <;> simp

theorem refuse_error {texts : List String} {e : Exc} :
    refuse texts = .error e ↔ refusedText texts = some e := by
  rw [refuse]
  cases refusedText texts <;> simp

section Select

variable {ρ α : Type} {texts : List String} {read : Database → ρ} {f : ρ → Db α}
  {context : Context} {d : Database}

theorem computes_select_bind {r : Except Exc (α × Database)} (sent : refuse texts = .ok ())
    (rest : (f (read d)).Computes postgres context d r) :
    ((Prog.execute (select texts read)).bind f).Computes postgres context d r :=
  Prog.computes_bind_ok (Prog.computes_execute (refuse_ok.mp sent) rfl rfl) rest

theorem computes_select_refused {e : Exc} (refused : refuse texts = .error e) :
    ((Prog.execute (select texts read)).bind f).Computes postgres context d (.error e) :=
  Prog.computes_bind_error (Prog.computes_refused (refuse_error.mp refused))

end Select

inductive IngestPlan where
  /-- The bytes are there. -/
  | found (row : Document)
  /-- The text is there with other bytes. -/
  | moved (row : Document) (fetched : FetchedDocument)
  | inserted (fetched : FetchedDocument) (format : DocFormat) (parsed : ParsedDocument)

def ingestPlan (env : IngestEnv) (url : String) (rows : List Document) :
    Except Exc IngestPlan := do
  let fetched ← fetch env.http url
  let contentHash := env.sha256 fetched.rawBytes
  refuse [contentHash]
  match rows.find? (·.contentHash = contentHash) with
  | some row => return .found row
  | none =>
      let format ← detectFormat env.repr fetched.url fetched.contentType fetched.rawBytes
      let parsed ← parseDocument env.parsers fetched.rawBytes format
      let textHash := textHashOf env.sha256 parsed.text
      refuse [textHash]
      match rows.find? (·.textHash = textHash) with
      | some row =>
          refuse [fetched.url, contentHash, storageBackendName]
          return .moved row fetched
      | none =>
          refuse ([fetched.url, contentHash, textHash, format.value, storageBackendName,
            parsed.text] ++ parsed.title.toList)
          return .inserted fetched format parsed

namespace IngestPlan

/-- The document of the plan, if it is there already. -/
def row? : IngestPlan → Option Document
  | found row => some row
  | moved row _ => some row
  | inserted .. => none

def documentId (env : IngestEnv) (plan : IngestPlan) : Uuid :=
  plan.row?.elim env.documentId Document.id

/-- The text hash of the document that the ingest returns. -/
def textHash (env : IngestEnv) : IngestPlan → String
  | found row => row.textHash
  | moved row _ => row.textHash
  | inserted _ _ parsed => textHashOf env.sha256 parsed.text

/-- The documents after it. -/
def apply (env : IngestEnv) (now : Time) (sourceId : Uuid) (rows : List Document) :
    IngestPlan → List Document
  | found _ => rows
  | moved row fetched =>
      replaceRow Document.id row.id (row.moved env fetched (env.sha256 fetched.rawBytes)) rows
  | inserted fetched format parsed => rows ++ [newDocument env now sourceId fetched format parsed]

end IngestPlan

section Plan

variable {env : IngestEnv} {now : Time} {sourceId : Uuid} {url : String} {context : Context}
  {d : Database}

/-- Executed alone on a table that meets its constraints, the ingest follows the plan. -/
theorem ingestSource_computes (table : DocumentTable d.documents)
    (fresh : ∀ o ∈ d.documents, o.id ≠ env.documentId) :
    ((ingestSource env now sourceId url).bind fun result =>
        (.ret (.ok result.documentId) : Db Uuid)).Computes postgres context d
      ((ingestPlan env url d.documents).map fun plan =>
        (plan.documentId env, { d with documents := plan.apply env now sourceId d.documents })) := by
  rw [ingestSource, ingestPlan]
  simp only [Prog.bind_eq, Prog.ofExcept]
  cases fetching : fetch env.http url with
  | error e => rfl
  | ok fetched =>
  simp only [Prog.bind_ret_ok, Prog.bind_assoc, except_ok_then]
  cases bytesTaken : refuse [env.sha256 fetched.rawBytes] with
  | error e => exact computes_select_refused bytesTaken
  | ok _ =>
  refine computes_select_bind bytesTaken ?_
  rw [except_ok_then]
  cases sameBytes : d.documents.find? (·.contentHash = env.sha256 fetched.rawBytes) with
  | some row => rfl
  | none =>
  dsimp only
  cases detecting : detectFormat env.repr fetched.url fetched.contentType fetched.rawBytes with
  | error e => rfl
  | ok format =>
  simp only [Prog.bind_ret_ok, Prog.bind_assoc, except_ok_then]
  cases parsing : parseDocument env.parsers fetched.rawBytes format with
  | error e => rfl
  | ok parsed =>
  simp only [Prog.bind_ret_ok, except_ok_then]
  cases textTaken : refuse [textHashOf env.sha256 parsed.text] with
  | error e => exact computes_select_refused textTaken
  | ok _ =>
  refine computes_select_bind textTaken ?_
  rw [except_ok_then]
  have content := find?_eq_none_iff.mp sameBytes
  cases sameText : d.documents.find? (·.textHash = textHashOf env.sha256 parsed.text) with
  | some row =>
      dsimp only
      have replayed := table.replay_moved env (List.mem_of_find?_eq_some sameText) content
      cases rowTaken : refuse [fetched.url, env.sha256 fetched.rawBytes, storageBackendName] with
      | error e =>
          exact Prog.computes_bind_error
            (Prog.computes_bind_error (Prog.computes_refused (refuse_error.mp rowTaken)))
      | ok _ =>
          exact Prog.computes_bind_ok (Prog.computes_bind_ok
            (Prog.computes_execute (refuse_ok.mp rowTaken) rfl replayed) rfl) rfl
  | none =>
      dsimp only
      have replayed := (@DocumentTable.insert d
        (newDocument env now sourceId fetched format parsed) table fresh content
        (find?_eq_none_iff.mp sameText)).1
      cases rowTaken : refuse ([fetched.url, env.sha256 fetched.rawBytes,
          textHashOf env.sha256 parsed.text, format.value, storageBackendName, parsed.text] ++
          parsed.title.toList) with
      | error e =>
          exact Prog.computes_bind_error
            (Prog.computes_bind_error (Prog.computes_refused (refuse_error.mp rowTaken)))
      | ok _ =>
          exact Prog.computes_bind_ok (Prog.computes_bind_ok
            (Prog.computes_execute (refuse_ok.mp rowTaken) rfl replayed) rfl) rfl

end Plan

/-! ### What a plan does to the documents -/

/-- The hash of the bytes that are fetched. -/
def bytesHash? (env : IngestEnv) (url : String) : Option String :=
  (fetch env.http url).toOption.map fun fetched => env.sha256 fetched.rawBytes

/-- What is fetched, read as a document. -/
def readDocument (env : IngestEnv) (url : String) : Except Exc ParsedDocument := do
  let fetched ← fetch env.http url
  let format ← detectFormat env.repr fetched.url fetched.contentType fetched.rawBytes
  parseDocument env.parsers fetched.rawBytes format

/-- The hash of the text that is fetched. -/
def textHash? (env : IngestEnv) (url : String) : Option String :=
  (readDocument env url).toOption.map fun parsed => textHashOf env.sha256 parsed.text

/-- The document with the bytes that are fetched, or else with the text. -/
def storedDocument? (env : IngestEnv) (url : String) (rows : List Document) : Option Document :=
  (rows.find? fun row => bytesHash? env url = some row.contentHash).or
    (rows.find? fun row => textHash? env url = some row.textHash)

/-- The text hash of that document; of what is fetched, if there is none. -/
def storedTextHash? (env : IngestEnv) (url : String) (rows : List Document) : Option String :=
  ((storedDocument? env url rows).map Document.textHash).or (textHash? env url)

/-- The plan that `ingestPlan` makes of the documents. -/
inductive IngestPlan.For (env : IngestEnv) (url : String) (rows : List Document) :
    IngestPlan → Prop where
  | found {row : Document} (bytes : bytesHash? env url = some row.contentHash)
      (member : row ∈ rows) : IngestPlan.For env url rows (.found row)
  | moved {row : Document} {fetched : FetchedDocument}
      (bytes : bytesHash? env url = some (env.sha256 fetched.rawBytes))
      (fresh : ∀ o ∈ rows, o.contentHash ≠ env.sha256 fetched.rawBytes)
      (text : textHash? env url = some row.textHash) (member : row ∈ rows) :
      IngestPlan.For env url rows (.moved row fetched)
  | inserted {fetched : FetchedDocument} {format : DocFormat} {parsed : ParsedDocument}
      (bytes : bytesHash? env url = some (env.sha256 fetched.rawBytes))
      (fresh : ∀ o ∈ rows, o.contentHash ≠ env.sha256 fetched.rawBytes)
      (text : textHash? env url = some (textHashOf env.sha256 parsed.text))
      (new : ∀ o ∈ rows, o.textHash ≠ textHashOf env.sha256 parsed.text) :
      IngestPlan.For env url rows (.inserted fetched format parsed)

theorem ingestPlan_for {env : IngestEnv} {url : String} {rows : List Document} {plan : IngestPlan}
    (planned : ingestPlan env url rows = .ok plan) : plan.For env url rows := by
  obtain ⟨fetched, fetches, planned⟩ := except_bind_ok.mp planned
  obtain ⟨_, _, planned⟩ := except_bind_ok.mp planned
  have bytes : bytesHash? env url = some (env.sha256 fetched.rawBytes) := by
    rw [bytesHash?, fetches]
    rfl
  cases sameBytes : rows.find? (·.contentHash = env.sha256 fetched.rawBytes) with
  | some row =>
      rw [sameBytes] at planned
      cases planned
      have hash : row.contentHash = env.sha256 fetched.rawBytes := by
        simpa using List.find?_some sameBytes
      exact .found (hash ▸ bytes) (List.mem_of_find?_eq_some sameBytes)
  | none =>
      rw [sameBytes] at planned
      have fresh := find?_eq_none_iff.mp sameBytes
      obtain ⟨format, detects, planned⟩ := except_bind_ok.mp planned
      obtain ⟨parsed, parses, planned⟩ := except_bind_ok.mp planned
      obtain ⟨_, _, planned⟩ := except_bind_ok.mp planned
      have text : textHash? env url = some (textHashOf env.sha256 parsed.text) := by
        rw [textHash?, readDocument, fetches, except_ok_then, detects, except_ok_then, parses]
        rfl
      cases sameText : rows.find? (·.textHash = textHashOf env.sha256 parsed.text) with
      | some row =>
          rw [sameText] at planned
          obtain ⟨_, _, planned⟩ := except_bind_ok.mp planned
          cases planned
          have hash : row.textHash = textHashOf env.sha256 parsed.text := by
            simpa using List.find?_some sameText
          exact .moved bytes fresh (hash ▸ text) (List.mem_of_find?_eq_some sameText)
      | none =>
          rw [sameText] at planned
          obtain ⟨_, _, planned⟩ := except_bind_ok.mp planned
          cases planned
          exact .inserted bytes fresh text (find?_eq_none_iff.mp sameText)

namespace IngestPlan.For

variable {env : IngestEnv} {now : Time} {sourceId : Uuid} {url hash : String}
  {rows : List Document} {plan : IngestPlan}

/-- The bytes are there before exactly if the plan has found them. -/
theorem stored_iff (plans : plan.For env url rows) (bytes : bytesHash? env url = some hash) :
    (∃ row ∈ rows, row.contentHash = hash) ↔ ∃ row, plan = .found row := by
  cases plans with
  | @found row same member =>
      obtain rfl := Option.some.inj (bytes.symm.trans same)
      exact iff_of_true ⟨row, member, rfl⟩ ⟨row, rfl⟩
  | moved same fresh =>
      obtain rfl := Option.some.inj (bytes.symm.trans same)
      exact iff_of_false (fun ⟨o, ho, h⟩ => fresh o ho h) nofun
  | inserted same fresh =>
      obtain rfl := Option.some.inj (bytes.symm.trans same)
      exact iff_of_false (fun ⟨o, ho, h⟩ => fresh o ho h) nofun

/-- The document that the plan finds. -/
theorem row?_eq (plans : plan.For env url rows) (table : DocumentTable rows) :
    plan.row? = storedDocument? env url rows := by
  have missing : ∀ {key : Document → String} {hash : String}, (∀ o ∈ rows, key o ≠ hash) →
      rows.find? (fun o => decide (some hash = some (key o))) = none := fun absent =>
    List.find?_eq_none.mpr fun o ho same =>
      absent o ho (Option.some.inj (of_decide_eq_true same)).symm
  have there : ∀ {key : Document → String} {row : Document}, Keyed key rows → row ∈ rows →
      rows.find? (fun o => decide (some (key row) = some (key o))) = some row := by
    intro key row keyed member
    simpa [eq_comm] using keyed.find? member
  rw [storedDocument?]
  cases plans with
  | found bytes member =>
      rw [bytes, there table.contents member]
      rfl
  | moved bytes fresh text member =>
      rw [bytes, text, missing fresh, there table.texts member]
      rfl
  | inserted bytes fresh text new =>
      rw [bytes, text, missing fresh, missing new]
      rfl

theorem textHash_eq (plans : plan.For env url rows) (table : DocumentTable rows) :
    storedTextHash? env url rows = some (plan.textHash env) := by
  rw [storedTextHash?, ← plans.row?_eq table]
  cases plans with
  | found => rfl
  | moved => rfl
  | inserted bytes fresh text => exact text

/-- Afterwards the document of the plan has the bytes. -/
theorem document (plans : plan.For env url rows) :
    ∃ row ∈ plan.apply env now sourceId rows, bytesHash? env url = some row.contentHash ∧
      row.id = plan.documentId env ∧ row.textHash = plan.textHash env := by
  cases plans with
  | @found row bytes member => exact ⟨row, member, bytes, rfl, rfl⟩
  | moved bytes fresh text member =>
      exact ⟨_, after_mem_replaceRow member rfl, bytes, rfl, rfl⟩
  | inserted bytes =>
      exact ⟨_, List.mem_append_right _ (List.mem_singleton_self _), bytes, rfl, rfl⟩

/-- Where the bytes are not there, they come with the text. -/
theorem stored_or_whole (plans : plan.For env url rows) :
    (∃ row ∈ rows, bytesHash? env url = some row.contentHash) ∨
      ∃ row ∈ plan.apply env now sourceId rows, bytesHash? env url = some row.contentHash ∧
        textHash? env url = some row.textHash := by
  cases plans with
  | @found row bytes member => exact .inl ⟨row, member, bytes⟩
  | moved bytes fresh text member =>
      exact .inr ⟨_, after_mem_replaceRow member rfl, bytes, text⟩
  | inserted bytes fresh text =>
      exact .inr ⟨_, List.mem_append_right _ (List.mem_singleton_self _), bytes, text⟩

/-- A row that was not there before has the bytes and the text. -/
theorem mem_apply (plans : plan.For env url rows) {row : Document}
    (member : row ∈ plan.apply env now sourceId rows) :
    row ∈ rows ∨ bytesHash? env url = some row.contentHash ∧
      textHash? env url = some row.textHash := by
  cases plans with
  | found => exact .inl member
  | moved bytes fresh text =>
      obtain rfl | ⟨old, _⟩ := mem_replaceRow member
      · exact .inr ⟨bytes, text⟩
      · exact .inl old
  | inserted bytes fresh text =>
      obtain old | new := List.mem_append.mp member
      · exact .inl old
      · obtain rfl := List.mem_singleton.mp new
        exact .inr ⟨bytes, text⟩

/-- A row with another text stays. -/
theorem keeps (plans : plan.For env url rows) (table : DocumentTable rows) {row : Document}
    (member : row ∈ rows) (other : textHash? env url ≠ some row.textHash) :
    row ∈ plan.apply env now sourceId rows := by
  cases plans with
  | found => exact member
  | @moved moved fetched bytes fresh text source =>
      refine mem_replaceRow_of_ne member fun same => other ?_
      rw [table.ids.eq_of_key member source same]
      exact text
  | inserted => exact List.mem_append_left _ member

/-- Every row stays under its identifier, with its text. -/
theorem keeps_text (plans : plan.For env url rows) (table : DocumentTable rows) {row : Document}
    (member : row ∈ rows) :
    ∃ after ∈ plan.apply env now sourceId rows,
      after.id = row.id ∧ after.textHash = row.textHash := by
  cases plans with
  | found => exact ⟨row, member, rfl, rfl⟩
  | @moved moved fetched bytes fresh text source =>
      by_cases same : row.id = moved.id
      · rw [table.ids.eq_of_key member source same]
        exact ⟨_, after_mem_replaceRow source rfl, rfl, rfl⟩
      · exact ⟨row, mem_replaceRow_of_ne member same, rfl, rfl⟩
  | inserted => exact ⟨row, List.mem_append_left _ member, rfl, rfl⟩

/-- Every row has an old identifier or the new one. -/
theorem ids (plans : plan.For env url rows) {row : Document}
    (member : row ∈ plan.apply env now sourceId rows) :
    (∃ old ∈ rows, old.id = row.id) ∨ row.id = env.documentId := by
  cases plans with
  | found => exact .inl ⟨row, member, rfl⟩
  | @moved moved fetched bytes fresh text source =>
      obtain rfl | ⟨old, _⟩ := mem_replaceRow member
      · exact .inl ⟨moved, source, rfl⟩
      · exact .inl ⟨row, old, rfl⟩
  | inserted =>
      obtain old | new := List.mem_append.mp member
      · exact .inl ⟨row, old, rfl⟩
      · obtain rfl := List.mem_singleton.mp new
        exact .inr rfl

/-- The table keeps meeting its constraints. -/
theorem table (plans : plan.For env url rows) (table : DocumentTable rows)
    (fresh : ∀ o ∈ rows, o.id ≠ env.documentId) :
    DocumentTable (plan.apply env now sourceId rows) := by
  cases plans with
  | found => exact table
  | @moved row fetched bytes content text member =>
      exact (@DocumentTable.update { Database.empty with documents := rows } row
        (row.moved env fetched (env.sha256 fetched.rawBytes)) table member rfl rfl content).2
  | @inserted fetched format parsed bytes content text new =>
      exact (@DocumentTable.insert { Database.empty with documents := rows }
        (newDocument env now sourceId fetched format parsed) table fresh content new).2

end IngestPlan.For

end IncidentPipeline
