import IncidentPipeline.Db.Tables
import IncidentPipeline.Ingest.Pipeline

/-!
# The documents of a sequence of ingests

Two hashes key the table: `text_hash` for the document and `content_hash` for the bytes
it was last fetched as, which is overwritten in place. `IngestCall.Effect` says what one
call does, in three cases; `Ingested` is what a sequence of calls keeps.
-/

namespace IncidentPipeline

open Tables Transactions

/-- One call of `_ingest_source` with the world it meets. -/
structure IngestCall where
  env : IngestEnv
  now : Time
  sourceId : Uuid
  sourceUrl : String

def IngestCall.program (call : IngestCall) : Db IngestResult :=
  ingestSource call.env call.now call.sourceId call.sourceUrl

/-! ### One call -/

/-- The columns that describe the document. -/
structure Document.SameDocument (r s : Document) : Prop where
  id : s.id = r.id
  sourceId : s.sourceId = r.sourceId
  text : s.text = r.text
  textHash : s.textHash = r.textHash
  title : s.title = r.title
  format : s.format = r.format
  createdAt : s.createdAt = r.createdAt

/-- The columns that describe the bytes are those of one fetch of the call. -/
def Document.FetchedBy (r : Document) (call : IngestCall) : Prop :=
  ∃ fetched, fetch call.env.http call.sourceUrl = .ok fetched ∧
    r.sourceUrl = fetched.url ∧ r.fetchedAt = call.env.fetchedAt ∧
    r.contentHash = call.env.sha256 fetched.rawBytes ∧ r.rawBytes = fetched.rawBytes ∧
    r.storageBackend = storageBackendName

/-- What a successful call has done to the table. -/
inductive IngestCall.Did (call : IngestCall) (before : List Document) :
    IngestResult → List Document → Prop where
  /-- The bytes are there already. -/
  | found {row : Document} {result : IngestResult} (member : row ∈ before)
      (id : result.documentId = row.id) (duplicate : result.wasDuplicate = true)
      (still : result.provenanceUpdated = false) : Did call before result before
  /-- The text is there with other bytes. -/
  | moved {row after : Document} {result : IngestResult} (member : row ∈ before)
      (same : row.SameDocument after) (origin : after.FetchedBy call)
      (fresh : ∀ o ∈ before, o.contentHash ≠ after.contentHash)
      (id : result.documentId = row.id) (duplicate : result.wasDuplicate = true)
      (moved : result.provenanceUpdated = true) :
      Did call before result (replaceRow Document.id row.id after before)
  /-- Neither is. -/
  | inserted {row : Document} {result : IngestResult} (key : row.id = call.env.documentId)
      (hash : row.textHash = textHashOf call.env.sha256 row.text) (origin : row.FetchedBy call)
      (content : ∀ o ∈ before, o.contentHash ≠ row.contentHash)
      (text : ∀ o ∈ before, o.textHash ≠ row.textHash)
      (id : result.documentId = row.id) (duplicate : result.wasDuplicate = false)
      (still : result.provenanceUpdated = false) : Did call before result (before ++ [row])

theorem find?_eq_none_iff {α β : Type} [DecidableEq β] {f : α → β} {b : β} {rows : List α} :
    rows.find? (fun r => decide (f r = b)) = none ↔ ∀ r ∈ rows, f r ≠ b := by
  simp

/-- What the full path reads from the fetch of a call. -/
structure IngestCall.Reads (call : IngestCall) (fetched : FetchedDocument) (format : DocFormat)
    (parsed : ParsedDocument) : Prop where
  fetches : fetch call.env.http call.sourceUrl = .ok fetched
  detected : detectFormat call.env.repr fetched.url fetched.contentType fetched.rawBytes =
    .ok format
  parsed : parseDocument call.env.parsers fetched.rawBytes format = .ok parsed

/-- The call serves the text of a stored row with bytes that are not stored, and the
driver takes the parameters of its statements. -/
structure IngestCall.Moves (call : IngestCall) (rows : List Document) (row : Document)
    (fetched : FetchedDocument) (format : DocFormat) (parsed : ParsedDocument) : Prop where
  reads : call.Reads fetched format parsed
  member : row ∈ rows
  fresh : ∀ o ∈ rows, o.contentHash ≠ call.env.sha256 fetched.rawBytes
  text : row.textHash = textHashOf call.env.sha256 parsed.text
  bytesTaken : refusedText [call.env.sha256 fetched.rawBytes] = none
  textTaken : refusedText [textHashOf call.env.sha256 parsed.text] = none
  rowTaken : refusedText [fetched.url, call.env.sha256 fetched.rawBytes, storageBackendName] = none

/-- What a successful call has read and written. -/
inductive IngestCall.Effect (call : IngestCall) (before : List Document) :
    IngestResult → List Document → Prop where
  | found {fetched : FetchedDocument} {row : Document}
      (fetches : fetch call.env.http call.sourceUrl = .ok fetched) (member : row ∈ before)
      (bytes : row.contentHash = call.env.sha256 fetched.rawBytes) :
      Effect call before (row.result (call.env.sha256 fetched.rawBytes) row.textHash false) before
  | moved {fetched : FetchedDocument} {format : DocFormat} {parsed : ParsedDocument}
      {row : Document} (moves : call.Moves before row fetched format parsed) :
      Effect call before (row.result (call.env.sha256 fetched.rawBytes)
          (textHashOf call.env.sha256 parsed.text) true)
        (replaceRow Document.id row.id
          (row.moved call.env fetched (call.env.sha256 fetched.rawBytes)) before)
  | inserted {fetched : FetchedDocument} {format : DocFormat} {parsed : ParsedDocument}
      (reads : call.Reads fetched format parsed)
      (fresh : ∀ o ∈ before, o.contentHash ≠ call.env.sha256 fetched.rawBytes)
      (new : ∀ o ∈ before, o.textHash ≠ textHashOf call.env.sha256 parsed.text) :
      Effect call before
        ⟨call.env.documentId, call.env.sha256 fetched.rawBytes,
          textHashOf call.env.sha256 parsed.text, format, parsed.title, parsed.text.length, false,
          false⟩
        (before ++ [newDocument call.env call.now call.sourceId fetched format parsed])

theorem IngestCall.Effect.did {call : IngestCall} {before after : List Document}
    {result : IngestResult} (effect : call.Effect before result after) :
    call.Did before result after := by
  cases effect with
  | found fetches member bytes => exact .found member rfl rfl rfl
  | moved moves =>
      exact .moved moves.member ⟨rfl, rfl, rfl, rfl, rfl, rfl, rfl⟩
        ⟨_, moves.reads.fetches, rfl, rfl, rfl, rfl, rfl⟩ moves.fresh rfl rfl rfl
  | inserted reads fresh new =>
      exact .inserted rfl rfl ⟨_, reads.fetches, rfl, rfl, rfl, rfl, rfl⟩ fresh new rfl rfl rfl

/-- The update of a row's provenance replaces that row alone. -/
theorem DocumentTable.replay_moved {d : Database} {row : Document} {fetched : FetchedDocument}
    (env : IngestEnv) (table : DocumentTable d.documents) (member : row ∈ d.documents)
    (fresh : ∀ o ∈ d.documents, o.contentHash ≠ env.sha256 fetched.rawBytes) :
    postgres.replay ((d.documents.filter (·.id = row.id)).map fun doc =>
        RowOp.updateDocument doc (doc.moved env fetched (env.sha256 fetched.rawBytes))) d =
      .ok { d with
        documents := replaceRow Document.id row.id
          (row.moved env fetched (env.sha256 fetched.rawBytes)) d.documents } := by
  rw [table.ids.filter_key member]
  exact (@DocumentTable.update d row (row.moved env fetched (env.sha256 fetched.rawBytes)) table
    member rfl rfl fresh).1

/-- A call on a table that meets its constraints, with a new identifier: no statement is
rejected by the server, and the table is unchanged or as `Effect` says. -/
theorem IngestCall.ends (call : IngestCall) {context : Context} {d : Database}
    (table : DocumentTable d.documents) (fresh : ∀ o ∈ d.documents, o.id ≠ call.env.documentId) :
    call.program.ends postgres context (fun result st => st.aborted = false ∧
      match result with
      | .error _ => st.db = d
      | .ok r => ∃ rows, st.db = { d with documents := rows } ∧ call.Effect d.documents r rows)
      ⟨d, false⟩ := by
  unfold IngestCall.program ingestSource
  refine Prog.ends_bind ?_
  cases fetching : fetch call.env.http call.sourceUrl with
  | error e => exact Prog.ends_ret ⟨rfl, rfl⟩
  | ok fetched =>
  refine Prog.ends_ret (Prog.ends_bind
    (Prog.ends_sent rfl rfl (fun _ => ⟨rfl, rfl⟩) fun bytesTaken => ?_))
  dsimp only
  cases sameBytes : d.documents.find? (·.contentHash = call.env.sha256 fetched.rawBytes) with
  | some row =>
      have bytes : row.contentHash = call.env.sha256 fetched.rawBytes := by
        simpa using List.find?_some sameBytes
      exact Prog.ends_ret ⟨rfl, d.documents, rfl,
        .found fetching (List.mem_of_find?_eq_some sameBytes) bytes⟩
  | none =>
  have content := find?_eq_none_iff.mp sameBytes
  refine Prog.ends_bind ?_
  cases detecting : detectFormat call.env.repr fetched.url fetched.contentType
    fetched.rawBytes with
  | error e => exact Prog.ends_ret ⟨rfl, rfl⟩
  | ok format =>
  refine Prog.ends_ret (Prog.ends_bind ?_)
  cases parsing : parseDocument call.env.parsers fetched.rawBytes format with
  | error e => exact Prog.ends_ret ⟨rfl, rfl⟩
  | ok parsed =>
  refine Prog.ends_ret (Prog.ends_bind
    (Prog.ends_sent rfl rfl (fun _ => ⟨rfl, rfl⟩) fun textTaken => ?_))
  dsimp only
  have reads : call.Reads fetched format parsed := ⟨fetching, detecting, parsing⟩
  cases sameText : d.documents.find? (·.textHash = textHashOf call.env.sha256 parsed.text) with
  | some row =>
      have member := List.mem_of_find?_eq_some sameText
      have text : row.textHash = textHashOf call.env.sha256 parsed.text := by
        simpa using List.find?_some sameText
      have replayed := table.replay_moved call.env member content
      refine Prog.ends_bind (Prog.ends_sent rfl replayed (fun _ => ⟨rfl, rfl⟩)
        fun rowTaken => Prog.ends_ret ?_)
      exact ⟨rfl, _, rfl, .moved ⟨reads, member, content, text, bytesTaken, textTaken, rowTaken⟩⟩
  | none =>
      have text := find?_eq_none_iff.mp sameText
      have replayed := (@DocumentTable.insert d
        (newDocument call.env call.now call.sourceId fetched format parsed) table fresh content
        text).1
      refine Prog.ends_bind (Prog.ends_send rfl replayed (fun _ => ⟨rfl, rfl⟩) (Prog.ends_ret ?_))
      exact ⟨rfl, _, rfl, .inserted reads content text⟩

theorem Document.SameDocument.refl (r : Document) : r.SameDocument r :=
  ⟨rfl, rfl, rfl, rfl, rfl, rfl, rfl⟩

theorem Document.SameDocument.trans {r s t : Document} (h : r.SameDocument s)
    (k : s.SameDocument t) : r.SameDocument t :=
  ⟨k.id.trans h.id, k.sourceId.trans h.sourceId, k.text.trans h.text, k.textHash.trans h.textHash,
    k.title.trans h.title, k.format.trans h.format, k.createdAt.trans h.createdAt⟩

variable {call : IngestCall} {before after : List Document} {result : IngestResult}

/-- No row is lost, and what describes the document stays. -/
theorem IngestCall.Did.keeps (did : call.Did before result after)
    (ids : Keyed Document.id before) :
    ∀ r ∈ before, ∃ s ∈ after, r.SameDocument s := by
  intro r hr
  cases did with
  | found => exact ⟨r, hr, .refl r⟩
  | @moved row moved _ member same =>
      by_cases h : r.id = row.id
      · rw [ids.eq_of_key hr member h]
        exact ⟨moved, after_mem_replaceRow member rfl, same⟩
      · exact ⟨r, mem_replaceRow_of_ne hr h, .refl r⟩
  | inserted => exact ⟨r, List.mem_append_left _ hr, .refl r⟩

/-- What the result says is what happened. -/
theorem IngestCall.Did.reports (did : call.Did before result after) :
    (∃ s ∈ after, s.id = result.documentId) ∧
      (result.wasDuplicate = true ↔ after.map Document.id = before.map Document.id) ∧
      (result.provenanceUpdated = true ↔ ∃ r ∈ before, r ∉ after) := by
  cases did with
  | @found row _ member id duplicate still =>
      refine ⟨⟨row, member, id.symm⟩, by simp [duplicate], ?_⟩
      simp only [still, Bool.false_eq_true, false_iff, not_exists, not_and, not_not]
      exact fun _ h => h
  | @moved row moved _ member same origin fresh id duplicate updated =>
      refine ⟨⟨moved, after_mem_replaceRow member rfl, same.id.trans id.symm⟩, ?_, ?_⟩
      · simp [duplicate, replaceRow_keys same.id]
      · refine iff_of_true updated ⟨row, member, fun still => ?_⟩
        obtain h | ⟨_, h⟩ := mem_replaceRow still
        · exact fresh row member (congrArg Document.contentHash h)
        · exact h rfl
  | @inserted row _ key hash origin content text id duplicate still =>
      refine ⟨⟨row, by simp, id.symm⟩, by simp [duplicate], ?_⟩
      simp only [still, Bool.false_eq_true, false_iff, not_exists, not_and, not_not]
      exact fun _ h => List.mem_append_left _ h

/-! ### A sequence of calls -/

/-- What the calls of a sequence leave behind, from no documents on. -/
structure Ingested (calls : List IngestCall) (rows : List Document) : Prop where
  table : DocumentTable rows
  textHash : ∀ r ∈ rows, ∃ call ∈ calls, r.textHash = textHashOf call.env.sha256 r.text
  origin : ∀ r ∈ rows, ∃ call ∈ calls, r.FetchedBy call
  ids : ∀ r ∈ rows, ∃ call ∈ calls, r.id = call.env.documentId

theorem Ingested.weaken {calls : List IngestCall} {rows : List Document}
    (h : Ingested calls rows) (call : IngestCall) : Ingested (calls ++ [call]) rows := by
  have more : ∀ {P : IngestCall → Prop}, (∃ c ∈ calls, P c) → ∃ c ∈ calls ++ [call], P c :=
    fun ⟨c, hc, p⟩ => ⟨c, List.mem_append_left _ hc, p⟩
  exact ⟨h.table, fun r hr => more (h.textHash r hr), fun r hr => more (h.origin r hr),
    fun r hr => more (h.ids r hr)⟩

theorem IngestCall.Did.ingested {calls : List IngestCall} (did : call.Did before result after)
    (h : Ingested calls before) (fresh : ∀ o ∈ before, o.id ≠ call.env.documentId) :
    Ingested (calls ++ [call]) after := by
  have old := h.weaken call
  cases did with
  | found => exact old
  | @moved row moved _ member same origin content =>
      have update := @DocumentTable.update { Database.empty with documents := before } row moved
        h.table member same.id same.textHash content
      refine ⟨update.2, ?_, ?_, ?_⟩
      · intro r hr
        obtain rfl | ⟨hr, _⟩ := mem_replaceRow hr
        · rw [same.textHash, same.text]
          exact old.textHash row member
        · exact old.textHash r hr
      · intro r hr
        obtain rfl | ⟨hr, _⟩ := mem_replaceRow hr
        · exact ⟨call, by simp, origin⟩
        · exact old.origin r hr
      · intro r hr
        obtain rfl | ⟨hr, _⟩ := mem_replaceRow hr
        · rw [same.id]
          exact old.ids row member
        · exact old.ids r hr
  | @inserted row _ key hash origin content text =>
      have insert := @DocumentTable.insert { Database.empty with documents := before } row h.table
        (fun o ho => key ▸ fresh o ho) content text
      have mine : ∀ {P : Document → IngestCall → Prop},
          (∀ r ∈ before, ∃ c ∈ calls ++ [call], P r c) →
          P row call → ∀ r ∈ before ++ [row], ∃ c ∈ calls ++ [call], P r c := by
        intro P others new r hr
        obtain hr | hr := List.mem_append.mp hr
        · exact others r hr
        · rw [List.mem_singleton.mp hr]
          exact ⟨call, by simp, new⟩
      exact ⟨insert.2, mine old.textHash hash, mine old.origin origin, mine old.ids key⟩

/-- A call executed alone: its result, and the tables and the session after it. -/
def IngestCall.run (call : IngestCall) (context : Context) (d : Database) :
    Except Exc IngestResult × Local Database :=
  call.program.serial postgres context ⟨d, false⟩

/-- The tables after a sequence of calls, oldest first. -/
def ingestHistory : List (Context × IngestCall) → Database → Database
  | [], d => d
  | (context, call) :: rest, d => ingestHistory rest (call.run context d).2.db

/-- A call that raises changes nothing, and one that returns has had an effect. -/
theorem IngestCall.run_effect {context : Context} {d : Database}
    (table : DocumentTable d.documents) (fresh : ∀ o ∈ d.documents, o.id ≠ call.env.documentId) :
    (∃ e, call.run context d = (.error e, ⟨d, false⟩)) ∨
      ∃ r rows, call.run context d = (.ok r, ⟨{ d with documents := rows }, false⟩) ∧
        call.Effect d.documents r rows := by
  have ended := @IngestCall.ends call context d table fresh
  rw [Prog.ends] at ended
  rw [IngestCall.run]
  generalize call.program.serial postgres context ⟨d, false⟩ = out at ended ⊢
  obtain ⟨outcome, db, aborted⟩ := out
  obtain ⟨alive, ended⟩ := ended
  dsimp only at alive ended
  subst alive
  cases outcome with
  | error e => exact .inl ⟨e, by rw [ended]⟩
  | ok r =>
      obtain ⟨rows, rfl, effect⟩ := ended
      exact .inr ⟨r, rows, rfl, effect⟩

theorem IngestCall.run_cases {context : Context} {d : Database}
    (table : DocumentTable d.documents) (fresh : ∀ o ∈ d.documents, o.id ≠ call.env.documentId) :
    (∃ e, call.run context d = (.error e, ⟨d, false⟩)) ∨
      ∃ r rows, call.run context d = (.ok r, ⟨{ d with documents := rows }, false⟩) ∧
        call.Did d.documents r rows := by
  obtain raised | ⟨r, rows, out, effect⟩ := @IngestCall.run_effect call context d table fresh
  · exact .inl raised
  · exact .inr ⟨r, rows, out, effect.did⟩

theorem IngestCall.run_ingested {context : Context} {d : Database} {calls : List IngestCall}
    (h : Ingested calls d.documents) (fresh : ∀ o ∈ d.documents, o.id ≠ call.env.documentId) :
    Ingested (calls ++ [call]) (call.run context d).2.db.documents ∧
      ∀ r ∈ d.documents, ∃ s ∈ (call.run context d).2.db.documents, r.SameDocument s := by
  obtain ⟨e, out⟩ | ⟨r, rows, out, did⟩ := @IngestCall.run_cases call context d h.table fresh
  · rw [out]
    exact ⟨h.weaken call, fun r hr => ⟨r, hr, .refl r⟩⟩
  · rw [out]
    exact ⟨did.ingested h fresh, did.keeps h.table.ids⟩

/-- New identifiers are new in the table. -/
theorem Ingested.fresh {calls rest : List IngestCall} {rows : List Document}
    (h : Ingested calls rows)
    (ids : ((calls ++ call :: rest).map fun call => call.env.documentId).Nodup) :
    ∀ o ∈ rows, o.id ≠ call.env.documentId := by
  intro o ho same
  obtain ⟨c, hc, key⟩ := h.ids o ho
  rw [List.map_append, List.nodup_append] at ids
  exact ids.2.2 _ (List.mem_map_of_mem hc) _ (by simp) (key.symm.trans same)

theorem ingestHistory_ingested {history : List (Context × IngestCall)} {calls : List IngestCall}
    {d : Database} (h : Ingested calls d.documents)
    (ids : ((calls ++ history.map Prod.snd).map fun call => call.env.documentId).Nodup) :
    Ingested (calls ++ history.map Prod.snd) (ingestHistory history d).documents ∧
      ∀ r ∈ d.documents, ∃ s ∈ (ingestHistory history d).documents, r.SameDocument s := by
  induction history generalizing calls d with
  | nil => simpa [ingestHistory] using ⟨h, fun r hr => ⟨r, hr, Document.SameDocument.refl r⟩⟩
  | cons entry rest ih =>
      obtain ⟨context, call⟩ := entry
      obtain ⟨later, kept⟩ := @IngestCall.run_ingested call context d calls h (h.fresh ids)
      have steps : calls ++ ((context, call) :: rest).map Prod.snd =
          (calls ++ [call]) ++ rest.map Prod.snd := by simp
      rw [steps] at ids ⊢
      obtain ⟨ingested, keeps⟩ := ih later ids
      refine ⟨ingested, fun r hr => ?_⟩
      obtain ⟨s, hs, first⟩ := kept r hr
      obtain ⟨t, ht, second⟩ := keeps s hs
      exact ⟨t, ht, first.trans second⟩

/-- A sequence of calls on an empty table, cut anywhere. At the cut no two rows share a
text or a content hash, both hashes are those of what the row holds, and what describes
the bytes comes from one fetch. No row is lost later and no column that describes the
document changes. The next call is not rejected by a constraint; it changes nothing if
it raises, and otherwise reports what it has done. -/
theorem ingest_sequence {sha256 : Bytes → String} (start : Database)
    {history later : List (Context × IngestCall)}
    (hashes : ∀ entry ∈ history ++ later, entry.2.env.sha256 = sha256)
    (ids : ((history ++ later).map fun entry => entry.2.env.documentId).Nodup) :
    let d := ingestHistory history { start with documents := [] }
    Keyed Document.text d.documents ∧ Keyed Document.contentHash d.documents ∧
    (∀ r ∈ d.documents, r.textHash = textHashOf sha256 r.text ∧
      r.contentHash = sha256 r.rawBytes) ∧
    (∀ r ∈ d.documents, ∃ entry ∈ history, r.FetchedBy entry.2) ∧
    (∀ r ∈ d.documents, ∃ s ∈ (ingestHistory later d).documents, r.SameDocument s) ∧
    ∀ context call rest, later = (context, call) :: rest →
      let outcome := call.run context d
      outcome.2.aborted = false ∧
      (∀ e, outcome.1 = .error e → outcome.2.db = d) ∧
      ∀ result, outcome.1 = .ok result →
        (∃ s ∈ outcome.2.db.documents, s.id = result.documentId) ∧
        (result.wasDuplicate = true ↔
          outcome.2.db.documents.map Document.id = d.documents.map Document.id) ∧
        (result.provenanceUpdated = true ↔ ∃ r ∈ d.documents, r ∉ outcome.2.db.documents) := by
  intro d
  have drawn : ((history.map Prod.snd ++ later.map Prod.snd).map
      fun call : IngestCall => call.env.documentId).Nodup := by
    simpa only [List.map_append, List.map_map, Function.comp_def] using ids
  have drawn_first : (([] ++ history.map Prod.snd).map
      fun call : IngestCall => call.env.documentId).Nodup := by
    rw [List.map_append] at drawn
    exact drawn.of_append_left
  have none_yet : Ingested [] ({ start with documents := [] } : Database).documents :=
    ⟨documentTable_nil, by simp, by simp, by simp⟩
  obtain ⟨ingested, _⟩ := ingestHistory_ingested none_yet drawn_first
  rw [List.nil_append] at ingested
  have called : ∀ {P : IngestCall → Prop}, (∃ call ∈ history.map Prod.snd, P call) →
      ∃ entry ∈ history, P entry.2 := by
    rintro P ⟨_, member, h⟩
    obtain ⟨entry, hentry, rfl⟩ := List.mem_map.mp member
    exact ⟨entry, hentry, h⟩
  have hash : ∀ entry ∈ history, entry.2.env.sha256 = sha256 := fun entry h =>
    hashes entry (List.mem_append_left _ h)
  have textHash : ∀ r ∈ d.documents, r.textHash = textHashOf sha256 r.text := by
    intro r hr
    obtain ⟨entry, hentry, h⟩ := called (ingested.textHash r hr)
    rw [h, hash entry hentry]
  refine ⟨?_, ingested.table.contents, ?_, fun r hr => called (ingested.origin r hr),
    (ingestHistory_ingested ingested drawn).2, ?_⟩
  · have hashed : d.documents.map Document.textHash =
        (d.documents.map Document.text).map (textHashOf sha256) := by
      rw [List.map_map]
      exact List.map_congr_left textHash
    have texts := ingested.table.texts
    rw [Keyed, hashed] at texts
    exact List.Nodup.of_map _ texts
  · intro r hr
    obtain ⟨entry, hentry, fetched, _, _, _, content, bytes, _⟩ := called (ingested.origin r hr)
    exact ⟨textHash r hr, by rw [content, bytes, hash entry hentry]⟩
  · rintro context call rest rfl outcome
    have fresh := @Ingested.fresh call _ (rest.map Prod.snd) _ ingested drawn
    rcases @IngestCall.run_cases call context d ingested.table fresh with
      ⟨e, out⟩ | ⟨r, rows, out, did⟩
    · have same : outcome = (.error e, ⟨d, false⟩) := out
      rw [same]
      exact ⟨rfl, fun _ _ => rfl, fun _ h => by cases h⟩
    · have same : outcome = (.ok r, ⟨{ d with documents := rows }, false⟩) := out
      rw [same]
      refine ⟨rfl, (fun _ h => by cases h), fun result h => ?_⟩
      obtain rfl := Except.ok.inj h
      exact did.reports

/-! The same text served as three byte strings, the first of them twice. -/

def spelledHash (bs : Bytes) : String := String.ofList (bs.map fun b => Char.ofNat (b.toNat + 97))

theorem spelledHash_injective : Function.Injective (textHashOf spelledHash) := by
  intro s t same
  have shifted : ∀ a b : UInt8, Char.ofNat (a.toNat + 97) = Char.ofNat (b.toNat + 97) → a = b := by
    intro a b h
    have ha : (a.toNat + 97).isValidChar := .inl (by have := a.toNat_lt; omega)
    have hb : (b.toNat + 97).isValidChar := .inl (by have := b.toNat_lt; omega)
    unfold Char.ofNat at h
    rw [dif_pos ha, dif_pos hb] at h
    have numbers : a.toNat + 97 = b.toNat + 97 := congrArg (fun c => c.val.toNat) h
    exact UInt8.toNat_inj.mp (by omega)
  have bytes : (s.toUTF8.data.toList).map (fun b => Char.ofNat (b.toNat + 97)) =
      (t.toUTF8.data.toList).map (fun b => Char.ofNat (b.toNat + 97)) := by
    simpa [textHashOf, spelledHash] using congrArg String.toList same
  have data := (List.map_injective_iff.mpr fun a b => shifted a b) bytes
  exact String.toByteArray_inj.mp (ByteArray.ext (Array.toList_inj.mp data))

def servedAs (content : Bytes) (documentId : Uuid) : Context × IngestCall :=
  (⟨.empty, []⟩, ⟨⟨fun url => .response 200 url (some "text/markdown") content,
    fun _ _ => .ok ⟨none, "an outage"⟩, spelledHash, id, 0, documentId⟩, 0, 1, "status"⟩)

theorem ingest_sequence_same_text :
    Keyed Document.contentHash (ingestHistory
      [servedAs [1] 10, servedAs [2] 11, servedAs [3] 12, servedAs [1] 13]
      { Database.empty with documents := [] }).documents := by
  have law := @ingest_sequence spelledHash .empty
    [servedAs [1] 10, servedAs [2] 11, servedAs [3] 12, servedAs [1] 13] []
    (by simp [servedAs]) (by simp [servedAs])
  exact law.2.1

end IncidentPipeline
