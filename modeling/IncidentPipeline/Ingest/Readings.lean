import IncidentPipeline.Ingest.Documents

/-!
# What the stored bytes are read as

The text of a document depends on its bytes and on the format that was detected for the
fetch, which the media type and the URL decide before the bytes do. A row keeps the
format of the fetch that inserted it, while its bytes are those of the last fetch that
moved it; and bytes that are stored are not read again.
-/

namespace IncidentPipeline

open Python Tables Transactions

/-! ### Reading stored bytes again -/

/-- The row can be read again from what it stores. -/
def Document.Reparses (parsers : DocFormat → Bytes → Except Exc ParsedDocument) (r : Document) :
    Prop := ∃ parsed, parseDocument parsers r.rawBytes r.format = .ok parsed ∧ parsed.text = r.text

variable {call : IngestCall} {context : Context} {d : Database}

/-- A call that moves a row writes the new bytes into it. -/
theorem IngestCall.Moves.run {row : Document} {fetched : FetchedDocument} {format : DocFormat}
    {parsed : ParsedDocument} (moves : call.Moves d.documents row fetched format parsed)
    (table : DocumentTable d.documents) :
    (call.run context d).2.db.documents = replaceRow Document.id row.id
      (row.moved call.env fetched (call.env.sha256 fetched.rawBytes)) d.documents := by
  obtain ⟨reads, member, fresh, text, bytesTaken, textTaken, rowTaken⟩ := moves
  have sameBytes : d.documents.find? (·.contentHash = call.env.sha256 fetched.rawBytes) = none :=
    find?_eq_none_iff.mpr fresh
  have sameText : d.documents.find? (·.textHash = textHashOf call.env.sha256 parsed.text) =
      some row := by
    rw [← text, ← List.head?_filter, table.texts.filter_key member]
    rfl
  have replayed := table.replay_moved call.env member fresh
  have first := @Prog.serial_execute_ok Context Database RowOp Exc _ postgres context
    (select [call.env.sha256 fetched.rawBytes] fun d =>
      d.documents.find? (·.contentHash = call.env.sha256 fetched.rawBytes)) d d none []
      bytesTaken (congrArg (fun found => Except.ok (found, [])) sameBytes) rfl
  have second := @Prog.serial_execute_ok Context Database RowOp Exc _ postgres context
    (select [textHashOf call.env.sha256 parsed.text] fun d =>
      d.documents.find? (·.textHash = textHashOf call.env.sha256 parsed.text)) d d (some row) []
      textTaken (congrArg (fun found => Except.ok (found, [])) sameText) rfl
  have last := @Prog.serial_execute_ok Context Database RowOp Exc _ postgres context
    (updateProvenanceSql call.env row.id fetched (call.env.sha256 fetched.rawBytes)) d _ () _
      rowTaken rfl replayed
  unfold IngestCall.run IngestCall.program
  rw [ingestSource_eq call.now call.sourceId reads.fetches reads.detected reads.parsed]
  rw [storeParsed]
  simp only [Prog.bind_eq, Prog.serial_bind, first, second, last]
  rfl

/-! ### A sequence of calls -/

section Sequence

variable {parsers : DocFormat → Bytes → Except Exc ParsedDocument}

/-- The bytes that the call stores on an existing row have the row's text in the format
of the row. -/
def IngestCall.KeepsReading (parsers : DocFormat → Bytes → Except Exc ParsedDocument)
    (call : IngestCall) (rows : List Document) : Prop :=
  ∀ row fetched format parsed, call.Moves rows row fetched format parsed →
    ∃ again, parseDocument parsers fetched.rawBytes row.format = .ok again ∧ again.text = row.text

/-- One call keeps all rows readable exactly if it keeps the reading of the row it moves. -/
theorem IngestCall.run_reparses (table : DocumentTable d.documents)
    (fresh : ∀ o ∈ d.documents, o.id ≠ call.env.documentId) (parse : call.env.parsers = parsers)
    (readable : ∀ r ∈ d.documents, r.Reparses parsers) :
    (∀ r ∈ (call.run context d).2.db.documents, r.Reparses parsers) ↔
      call.KeepsReading parsers d.documents := by
  constructor
  · intro later row fetched format parsed moves
    rw [moves.run table] at later
    exact later _ (after_mem_replaceRow moves.member rfl)
  · intro keeps r hr
    obtain ⟨e, out⟩ | ⟨result, rows, out, effect⟩ :=
      @IngestCall.run_effect call context d table fresh
    · rw [out] at hr
      exact readable r hr
    · rw [out] at hr
      cases effect with
      | found => exact readable r hr
      | moved moves =>
          obtain rfl | ⟨old, _⟩ := mem_replaceRow hr
          · obtain ⟨again, parsed, same⟩ := keeps _ _ _ _ moves
            exact ⟨again, parsed, same⟩
          · exact readable r old
      | inserted reads =>
          obtain old | new := List.mem_append.mp hr
          · exact readable r old
          · obtain rfl := List.mem_singleton.mp new
            exact ⟨_, parse ▸ reads.parsed, rfl⟩

theorem ingestHistory_reparses {history : List (Context × IngestCall)} {calls : List IngestCall}
    (ingested : Ingested calls d.documents)
    (ids : ((calls ++ history.map Prod.snd).map fun call => call.env.documentId).Nodup)
    (parse : ∀ entry ∈ history, entry.2.env.parsers = parsers)
    (readable : ∀ r ∈ d.documents, r.Reparses parsers) :
    (∀ first later, history = first ++ later →
      ∀ r ∈ (ingestHistory first d).documents, r.Reparses parsers) ↔
    ∀ first context call later, history = first ++ (context, call) :: later →
      call.KeepsReading parsers (ingestHistory first d).documents := by
  induction history generalizing calls d with
  | nil =>
      refine iff_of_true (fun first later same => ?_) (fun first context call later same => ?_)
      · obtain ⟨rfl, _⟩ := List.append_eq_nil_iff.mp same.symm
        exact readable
      · simp at same
  | cons entry rest ih =>
      obtain ⟨context, call⟩ := entry
      obtain ⟨grown, _⟩ := @IngestCall.run_ingested call context d calls ingested
        (ingested.fresh ids)
      have now := @IngestCall.run_reparses call context d parsers ingested.table
        (ingested.fresh ids) (parse _ List.mem_cons_self) readable
      have steps : calls ++ ((context, call) :: rest).map Prod.snd =
          (calls ++ [call]) ++ rest.map Prod.snd := by simp
      rw [steps] at ids
      have later := ih grown ids fun e he => parse e (List.mem_cons_of_mem _ he)
      constructor
      · intro all first context' call' tail same
        have readable₁ := all [(context, call)] rest rfl
        cases first with
        | nil =>
            cases same
            exact now.mp readable₁
        | cons head first =>
            obtain ⟨rfl, rfl⟩ := List.cons.inj same
            refine (later readable₁).mp (fun more tail' split => ?_) first context' call' tail rfl
            exact all ((context, call) :: more) tail' (congrArg (List.cons (context, call)) split)
      · intro keeps first tail same
        have readable₁ := now.mpr (keeps [] context call rest rfl)
        cases first with
        | nil => exact readable
        | cons head first =>
            obtain ⟨rfl, rfl⟩ := List.cons.inj same
            refine (later readable₁).mpr (fun more context' call' tail' split => ?_) first tail rfl
            exact keeps ((context, call) :: more) context' call' tail'
              (congrArg (List.cons (context, call)) split)

/-- Every table that a sequence of calls leads to can be read again from what it stores,
exactly if no call stores bytes on an existing row that do not have the row's text in the
row's format. -/
theorem documents_reparse_iff (start : Database) {history : List (Context × IngestCall)}
    (parse : ∀ entry ∈ history, entry.2.env.parsers = parsers)
    (ids : (history.map fun entry => entry.2.env.documentId).Nodup) :
    (∀ first later, history = first ++ later →
      ∀ r ∈ (ingestHistory first { start with documents := [] }).documents,
        r.Reparses parsers) ↔
    ∀ first context call later, history = first ++ (context, call) :: later →
      call.KeepsReading parsers (ingestHistory first { start with documents := [] }).documents := by
  have none_yet : Ingested [] ({ start with documents := [] } : Database).documents :=
    ⟨documentTable_nil, by simp, by simp, by simp⟩
  have drawn : (([] ++ history.map Prod.snd).map
      fun call : IngestCall => call.env.documentId).Nodup := by
    simpa only [List.nil_append, List.map_map, Function.comp_def] using ids
  exact ingestHistory_reparses none_yet drawn parse (by simp)

/-! ### Bytes that are stored already -/

/-- The call has read the bytes of the row, and they had its text. -/
def IngestCall.Stored (call : IngestCall) (row : Document) : Prop :=
  ∃ fetched format parsed, call.Reads fetched format parsed ∧ row.rawBytes = fetched.rawBytes ∧
    row.contentHash = call.env.sha256 fetched.rawBytes ∧ parsed.text = row.text

/-- The row is in the tables, as it is, from this call on. -/
structure Document.BroughtBy (row : Document) (start : Database)
    (first : List (Context × IngestCall)) (entry : Context × IngestCall) : Prop where
  missing : row ∉ (ingestHistory first start).documents
  there : row ∈ (ingestHistory (first ++ [entry]) start).documents

theorem ingestHistory_append (first later : List (Context × IngestCall)) (start : Database) :
    ingestHistory (first ++ later) start = ingestHistory later (ingestHistory first start) := by
  induction first generalizing start with
  | nil => rfl
  | cons entry rest ih =>
      obtain ⟨context, call⟩ := entry
      exact ih (call.run context start).2.db

/-- What is in the tables at the end and was not at the start has been brought by a call. -/
theorem Document.exists_broughtBy {row : Document} {start : Database}
    {history : List (Context × IngestCall)} (missing : row ∉ start.documents)
    (there : row ∈ (ingestHistory history start).documents) :
    ∃ first entry later, history = first ++ entry :: later ∧
      row.BroughtBy start first entry := by
  induction history using List.reverseRecOn with
  | nil => exact absurd there missing
  | append_singleton earlier last ih =>
      by_cases before : row ∈ (ingestHistory earlier start).documents
      · obtain ⟨first, entry, later, same, brought⟩ := ih before
        refine ⟨first, entry, later ++ [last], ?_, brought⟩
        rw [same, List.append_assoc, List.cons_append]
      · exact ⟨earlier, last, [], rfl, before, there⟩

variable {sha256 : Bytes → String}

/-- Every row that a call brings has been read by it. -/
theorem IngestCall.run_stored {calls : List IngestCall} (ingested : Ingested calls d.documents)
    (fresh : ∀ o ∈ d.documents, o.id ≠ call.env.documentId)
    (hashes : ∀ c ∈ calls ++ [call], c.env.sha256 = sha256)
    (injective : Function.Injective (textHashOf sha256)) :
    ∀ r ∈ (call.run context d).2.db.documents, r ∉ d.documents → call.Stored r := by
  intro r hr new
  obtain ⟨e, out⟩ | ⟨result, rows, out, effect⟩ :=
    @IngestCall.run_effect call context d ingested.table fresh
  · rw [out] at hr
    exact absurd hr new
  · rw [out] at hr
    cases effect with
    | found => exact absurd hr new
    | @moved fetched format parsed row moves =>
        obtain rfl | ⟨there, _⟩ := mem_replaceRow hr
        · refine ⟨fetched, format, parsed, moves.reads, rfl, rfl, ?_⟩
          -- the row was found by the hash of the text
          obtain ⟨c, hc, hash⟩ := ingested.textHash row moves.member
          have text := moves.text
          rw [hash, hashes c (List.mem_append_left _ hc), hashes call (by simp)] at text
          exact (injective text).symm
        · exact absurd there new
    | inserted reads =>
        obtain there | added := List.mem_append.mp hr
        · exact absurd there new
        · obtain rfl := List.mem_singleton.mp added
          exact ⟨_, _, _, reads, rfl, rfl, rfl⟩

/-- The call that brings a row has read its bytes, and they had its text. -/
theorem Document.BroughtBy.stored {row : Document} {first later : List (Context × IngestCall)}
    {entry : Context × IngestCall} (none_yet : Ingested [] d.documents)
    (brought : row.BroughtBy d first entry)
    (ids : ((first ++ entry :: later).map fun entry => entry.2.env.documentId).Nodup)
    (hashes : ∀ e ∈ first ++ entry :: later, e.2.env.sha256 = sha256)
    (injective : Function.Injective (textHashOf sha256)) : entry.2.Stored row := by
  obtain ⟨context, call⟩ := entry
  have drawn : ((([] ++ first.map Prod.snd) ++ call :: later.map Prod.snd).map
      fun call : IngestCall => call.env.documentId).Nodup := by
    simpa only [List.nil_append, List.map_append, List.map_map, Function.comp_def, List.map_cons]
      using ids
  have drawn_first := drawn
  rw [List.map_append] at drawn_first
  obtain ⟨ingested, _⟩ := ingestHistory_ingested none_yet drawn_first.of_append_left
  have hashed : ∀ c ∈ ([] ++ first.map Prod.snd) ++ [call], c.env.sha256 = sha256 := by
    intro c hc
    obtain earlier | last := List.mem_append.mp hc
    · obtain ⟨e, he, rfl⟩ := List.mem_map.mp earlier
      exact hashes e (List.mem_append_left _ he)
    · obtain rfl := List.mem_singleton.mp last
      exact hashes (context, c) (by simp)
  have there := brought.there
  rw [ingestHistory_append] at there
  exact IngestCall.run_stored ingested (ingested.fresh drawn) hashed injective row there
    brought.missing

/-- Two formats read the same text from the bytes. -/
def ReadAlike (parsers : DocFormat → Bytes → Except Exc ParsedDocument) (rawBytes : Bytes)
    (f g : DocFormat) : Prop :=
  (parseDocument parsers rawBytes f).map ParsedDocument.text =
    (parseDocument parsers rawBytes g).map ParsedDocument.text

/-- A fetch of bytes that a row stores comes back with this row, and changes nothing. -/
theorem IngestCall.run_of_stored {row : Document} {fetched : FetchedDocument}
    (table : DocumentTable d.documents) (fresh : ∀ o ∈ d.documents, o.id ≠ call.env.documentId)
    (member : row ∈ d.documents) (fetching : fetch call.env.http call.sourceUrl = .ok fetched)
    (known : row.contentHash = call.env.sha256 fetched.rawBytes) {result : IngestResult}
    (returned : (call.run context d).1 = .ok result) :
    result.documentId = row.id ∧ (call.run context d).2.db = d := by
  obtain ⟨e, out⟩ | ⟨result', rows, out, effect⟩ :=
    @IngestCall.run_effect call context d table fresh
  · rw [out] at returned
    cases returned
  · rw [out] at returned ⊢
    obtain rfl := Except.ok.inj returned
    cases effect with
    | @found fetched' row' fetches member' bytes' =>
        obtain rfl := Except.ok.inj (fetching.symm.trans fetches)
        have one := table.contents.eq_of_key member' member (bytes'.trans known.symm)
        exact ⟨congrArg Document.id one, rfl⟩
    | moved moves =>
        obtain rfl := Except.ok.inj (fetching.symm.trans moves.reads.fetches)
        exact absurd known (moves.fresh row member)
    | inserted reads' unknown =>
        obtain rfl := Except.ok.inj (fetching.symm.trans reads'.fetches)
        exact absurd known (unknown row member)

/-- A fetch reads the text that its bytes have in a format, exactly if the format detected for
it reads the same. -/
theorem IngestCall.reads_text_iff {fetched : FetchedDocument} {format : DocFormat} {text : String}
    (parse : call.env.parsers = parsers)
    (fetching : fetch call.env.http call.sourceUrl = .ok fetched)
    (read : (parseDocument parsers fetched.rawBytes format).map ParsedDocument.text = .ok text) :
    (∃ detected parsed, call.Reads fetched detected parsed ∧ parsed.text = text) ↔
      ∃ detected, detectFormat call.env.repr fetched.url fetched.contentType fetched.rawBytes =
        .ok detected ∧ ReadAlike parsers fetched.rawBytes format detected := by
  constructor
  · rintro ⟨detected, again, reads, alike⟩
    refine ⟨detected, reads.detected, read.trans ?_⟩
    rw [← parse, reads.parsed]
    exact congrArg Except.ok alike.symm
  · rintro ⟨detected, detecting, alike⟩
    have read' := alike.symm.trans read
    cases parsing : parseDocument parsers fetched.rawBytes detected with
    | error e =>
        rw [parsing] at read'
        cases read'
    | ok again =>
        rw [parsing] at read'
        exact ⟨detected, again, ⟨fetching, detecting, parse ▸ parsing⟩, Except.ok.inj read'⟩

/-- A fetch of bytes that are stored leads to the row that stores them. A call has brought
this row, and whichever call has done so: its text is what the full path reads from this
fetch exactly if the format detected for it and the one detected for the fetch of that
call read the same text. -/
theorem same_bytes_iff (start : Database) {history : List (Context × IngestCall)}
    {context : Context} {call : IngestCall}
    (parse : ∀ entry ∈ history ++ [(context, call)], entry.2.env.parsers = parsers)
    (hashes : ∀ entry ∈ history ++ [(context, call)], entry.2.env.sha256 = sha256)
    (injective : Function.Injective (textHashOf sha256))
    (ids : ((history ++ [(context, call)]).map fun entry => entry.2.env.documentId).Nodup) :
    let empty := { start with documents := [] }
    let d := ingestHistory history empty
    ∀ row ∈ d.documents, ∀ fetched, fetch call.env.http call.sourceUrl = .ok fetched →
      row.rawBytes = fetched.rawBytes →
      (∀ result, (call.run context d).1 = .ok result →
        result.documentId = row.id ∧ (call.run context d).2.db = d) ∧
      (∃ first entry later, history = first ++ entry :: later ∧
        row.BroughtBy empty first entry) ∧
      ∀ first entry later, history = first ++ entry :: later → row.BroughtBy empty first entry →
        ∃ stored format parsed, entry.2.Reads stored format parsed ∧
          stored.rawBytes = fetched.rawBytes ∧ parsed.text = row.text ∧
          ((∃ detected parsed, call.Reads fetched detected parsed ∧ parsed.text = row.text) ↔
            ∃ detected, detectFormat call.env.repr fetched.url fetched.contentType
              fetched.rawBytes = .ok detected ∧
              ReadAlike parsers fetched.rawBytes format detected) := by
  intro empty d row member fetched fetching bytes
  have none_yet : Ingested [] empty.documents :=
    ⟨documentTable_nil, by simp [empty], by simp [empty], by simp [empty]⟩
  have drawn : (([] ++ history.map Prod.snd ++ [call]).map
      fun call : IngestCall => call.env.documentId).Nodup := by
    simpa only [List.nil_append, List.map_append, List.map_map, Function.comp_def, List.map_cons,
      List.map_nil] using ids
  have drawn_first := drawn
  rw [List.map_append] at drawn_first
  obtain ⟨ingested, _⟩ := ingestHistory_ingested none_yet drawn_first.of_append_left
  have mine : call.env.sha256 = sha256 := hashes (context, call) (by simp)
  have parsers_mine : call.env.parsers = parsers := parse (context, call) (by simp)
  have ids_first := ids
  rw [List.map_append] at ids_first
  have storing : ∀ first entry later, history = first ++ entry :: later →
      row.BroughtBy empty first entry → entry.2.Stored row := by
    rintro first entry later rfl brought
    exact brought.stored none_yet ids_first.of_append_left
      (fun e he => hashes e (List.mem_append_left _ he)) injective
  obtain ⟨first, entry, later, same, brought⟩ :=
    Document.exists_broughtBy (by simp [empty]) member
  have known : row.contentHash = call.env.sha256 fetched.rawBytes := by
    obtain ⟨stored, format, parsed, reads, sameBytes, hash, text⟩ :=
      storing first entry later same brought
    rw [hash, hashes entry (by simp [same]), mine, ← sameBytes, bytes]
  refine ⟨fun result returned => IngestCall.run_of_stored ingested.table (ingested.fresh drawn)
    member fetching known returned, ⟨first, entry, later, same, brought⟩,
    fun first entry later same brought => ?_⟩
  obtain ⟨stored, format, parsed, reads, sameBytes, hash, text⟩ :=
    storing first entry later same brought
  refine ⟨stored, format, parsed, reads, sameBytes.symm.trans bytes, text, ?_⟩
  -- what the storing call has read
  have read : (parseDocument parsers fetched.rawBytes format).map ParsedDocument.text =
      .ok row.text := by
    have parse_entry : entry.2.env.parsers = parsers := parse entry (by simp [same])
    rw [← bytes, sameBytes, ← parse_entry, reads.parsed]
    exact congrArg Except.ok text
  exact IngestCall.reads_text_iff parsers_mine fetching read

end Sequence

/-! One page, first served as markdown and then, with the same bytes, as HTML. -/

/-- What the parsers make of the page, and of a text without markup. -/
def plainParsers : DocFormat → Bytes → Except Exc ParsedDocument
  | .markdown, rawBytes =>
      .ok ⟨none, strip (String.ofList (rawBytes.map fun b => Char.ofNat b.toNat))⟩
  | .html, _ => .ok ⟨none, "hi"⟩
  | .pdf, _ => .error (foreign "PdfStreamError" "Stream has ended unexpectedly")

/-- `<p>hi</p>`. -/
def paragraph : Bytes := [60, 112, 62, 104, 105, 60, 47, 112, 62]

def pageAs (contentType : String) (content : Bytes) (documentId : Uuid) : Context × IngestCall :=
  (⟨.empty, []⟩, ⟨⟨fun url => .response 200 url (some contentType) content, plainParsers,
    spelledHash, id, 0, documentId⟩, 0, 1, "status"⟩)

theorem formatOfMediaType_markdown : formatOfMediaType "text/markdown" = some .markdown := by
  rw [formatOfMediaType]
  simp only [lowerText_eq]
  decide

theorem formatOfMediaType_html : formatOfMediaType "text/html" = some .html := by
  rw [formatOfMediaType]
  simp only [lowerText_eq]
  decide

theorem pageAs_reads {contentType : String} {content : Bytes} {documentId : Uuid}
    {format : DocFormat} {parsed : ParsedDocument} (given : contentType ≠ "")
    (recognized : formatOfMediaType contentType = some format)
    (parse : parseDocument plainParsers content format = .ok parsed) :
    (pageAs contentType content documentId).2.Reads ⟨"status", some contentType, content⟩ format
      parsed :=
  ⟨rfl, detectFormat_of_mediaType given recognized, parse⟩

theorem IngestCall.Reads.program_eq {fetched : FetchedDocument} {format : DocFormat}
    {parsed : ParsedDocument} (reads : call.Reads fetched format parsed) :
    call.program = storeParsed call.env call.now call.sourceId fetched format parsed :=
  ingestSource_eq call.now call.sourceId reads.fetches reads.detected reads.parsed

theorem paragraph_markdown (documentId : Uuid) :
    (pageAs "text/markdown" paragraph documentId).2.Reads
      ⟨"status", some "text/markdown", paragraph⟩ .markdown ⟨none, "<p>hi</p>"⟩ :=
  pageAs_reads (by decide) formatOfMediaType_markdown (by rfl)

theorem paragraph_html (documentId : Uuid) :
    (pageAs "text/html" paragraph documentId).2.Reads ⟨"status", some "text/html", paragraph⟩ .html
      ⟨none, "hi"⟩ :=
  pageAs_reads (by decide) formatOfMediaType_html (by rfl)

def paragraphRow : Document :=
  newDocument (pageAs "text/markdown" paragraph 10).2.env 0 1
    ⟨"status", some "text/markdown", paragraph⟩ .markdown ⟨none, "<p>hi</p>"⟩

theorem ingestHistory_paragraph : ingestHistory [pageAs "text/markdown" paragraph 10] .empty =
    { Database.empty with documents := [paragraphRow] } := by
  show ((pageAs "text/markdown" paragraph 10).2.program.serial postgres
    (pageAs "text/markdown" paragraph 10).1 ⟨.empty, false⟩).2.db = _
  rw [(paragraph_markdown 10).program_eq]
  rfl

/-- The row that is returned does not have the text that the fetch is read as. -/
theorem same_bytes_other_text :
    ∃ row ∈ (ingestHistory [pageAs "text/markdown" paragraph 10] .empty).documents,
      row.rawBytes = paragraph ∧
      ((pageAs "text/html" paragraph 11).2.run ⟨.empty, []⟩
        (ingestHistory [pageAs "text/markdown" paragraph 10] .empty)).1.map
          IngestResult.documentId = .ok row.id ∧
      ∃ fetched parsed, (pageAs "text/html" paragraph 11).2.Reads fetched .html parsed ∧
        fetched.rawBytes = paragraph ∧ parsed.text ≠ row.text := by
  rw [ingestHistory_paragraph]
  refine ⟨paragraphRow, List.mem_singleton_self _, rfl, ?_, _, _, paragraph_html 11, rfl, by decide⟩
  show (((pageAs "text/html" paragraph 11).2.program.serial postgres ⟨.empty, []⟩
    ⟨{ Database.empty with documents := [paragraphRow] }, false⟩).1).map _ = _
  rw [(paragraph_html 11).program_eq]
  rfl

/-! A note, first served as markdown and then, with the same text, as HTML. -/

theorem note_markdown (documentId : Uuid) :
    (pageAs "text/markdown" [104, 105] documentId).2.Reads
      ⟨"status", some "text/markdown", [104, 105]⟩ .markdown ⟨none, "hi"⟩ :=
  pageAs_reads (by decide) formatOfMediaType_markdown (by rfl)

def noteRow : Document :=
  newDocument (pageAs "text/markdown" [104, 105] 10).2.env 0 1
    ⟨"status", some "text/markdown", [104, 105]⟩ .markdown ⟨none, "hi"⟩

theorem ingestHistory_note : ingestHistory [pageAs "text/markdown" [104, 105] 10] .empty =
    { Database.empty with documents := [noteRow] } := by
  show ((pageAs "text/markdown" [104, 105] 10).2.program.serial postgres
    (pageAs "text/markdown" [104, 105] 10).1 ⟨.empty, false⟩).2.db = _
  rw [(note_markdown 10).program_eq]
  rfl

/-- The note with a line feed at its end. -/
def endedNote : Bytes := [104, 105, 10]

theorem endedNote_html (documentId : Uuid) :
    (pageAs "text/html" endedNote documentId).2.Reads ⟨"status", some "text/html", endedNote⟩ .html
      ⟨none, "hi"⟩ :=
  pageAs_reads (by decide) formatOfMediaType_html (by rfl)

theorem endedNote_markdown (documentId : Uuid) :
    (pageAs "text/markdown" endedNote documentId).2.Reads
      ⟨"status", some "text/markdown", endedNote⟩ .markdown ⟨none, "hi"⟩ :=
  pageAs_reads (by decide) formatOfMediaType_markdown (by rfl)

/-- The row of the note, moved to the bytes that end with a line feed. -/
def movedNoteRow : Document :=
  noteRow.moved (pageAs "text/html" endedNote 11).2.env ⟨"status", some "text/html", endedNote⟩
    (spelledHash endedNote)

theorem ingestHistory_movedNote :
    ingestHistory [pageAs "text/markdown" [104, 105] 10, pageAs "text/html" endedNote 11] .empty =
      { Database.empty with documents := [movedNoteRow] } := by
  have history : ingestHistory [pageAs "text/markdown" [104, 105] 10,
      pageAs "text/html" endedNote 11] .empty = ((pageAs "text/html" endedNote 11).2.program.serial
        postgres ⟨.empty, []⟩ ⟨ingestHistory [pageAs "text/markdown" [104, 105] 10] .empty,
          false⟩).2.db := rfl
  rw [history, ingestHistory_note, (endedNote_html 11).program_eq]
  rfl

/-- The second call has brought the row, and in its format the bytes have the text that
the third reads. -/
theorem same_bytes_movedNote :
    (∀ result, ((pageAs "text/markdown" endedNote 12).2.run ⟨.empty, []⟩
        (ingestHistory [pageAs "text/markdown" [104, 105] 10, pageAs "text/html" endedNote 11]
          .empty)).1 = .ok result → result.documentId = movedNoteRow.id) ∧
      ∃ detected parsed, (pageAs "text/markdown" endedNote 12).2.Reads
        ⟨"status", some "text/markdown", endedNote⟩ detected parsed ∧
          parsed.text = movedNoteRow.text := by
  have stored : movedNoteRow ∈ (ingestHistory [pageAs "text/markdown" [104, 105] 10,
      pageAs "text/html" endedNote 11] .empty).documents := by
    rw [ingestHistory_movedNote]
    exact List.mem_singleton_self _
  obtain ⟨returned, _, law⟩ := @same_bytes_iff plainParsers spelledHash .empty
    [pageAs "text/markdown" [104, 105] 10, pageAs "text/html" endedNote 11] ⟨.empty, []⟩
    (pageAs "text/markdown" endedNote 12).2 (by simp [pageAs]) (by simp [pageAs])
    spelledHash_injective (by simp [pageAs]) movedNoteRow stored
    ⟨"status", some "text/markdown", endedNote⟩ (by rfl) rfl
  have brought : movedNoteRow.BroughtBy .empty [pageAs "text/markdown" [104, 105] 10]
      (pageAs "text/html" endedNote 11) := by
    refine ⟨?_, stored⟩
    rw [ingestHistory_note]
    decide
  obtain ⟨read, format, parsed, reads, bytes, text, alike⟩ :=
    law [pageAs "text/markdown" [104, 105] 10] (pageAs "text/html" endedNote 11) [] rfl brought
  obtain rfl : read = ⟨"status", some "text/html", endedNote⟩ :=
    Except.ok.inj (reads.fetches.symm.trans (endedNote_html 11).fetches)
  obtain rfl : format = .html :=
    Except.ok.inj (reads.detected.symm.trans (endedNote_html 11).detected)
  refine ⟨fun result ok => (returned result ok).1, alike.mpr ⟨.markdown, ?_, ?_⟩⟩
  · exact (endedNote_markdown 12).detected
  · rw [ReadAlike]
    rfl

/-- The row has been moved to bytes of another format, and its text can still be read. -/
theorem documents_reparse_movedNote : movedNoteRow.Reparses plainParsers := by
  have law := @documents_reparse_iff plainParsers .empty
    [pageAs "text/markdown" [104, 105] 10, pageAs "text/html" endedNote 11]
    (by simp [pageAs]) (by simp [pageAs])
  have stored : movedNoteRow ∈ (ingestHistory [pageAs "text/markdown" [104, 105] 10,
      pageAs "text/html" endedNote 11] .empty).documents := by
    rw [ingestHistory_movedNote]
    exact List.mem_singleton_self _
  refine law.mpr ?_ _ [] (List.append_nil _).symm movedNoteRow stored
  intro first context call later same row fetched format parsed moves
  cases first with
  | nil =>
      -- there is nothing to move yet
      cases moves.member
  | cons head first =>
      obtain ⟨rfl, second⟩ := List.cons.inj same
      cases first with
      | nil =>
          obtain ⟨taken, _⟩ := List.cons.inj second
          obtain rfl : (pageAs "text/html" endedNote 11).2 = call := congrArg Prod.snd taken
          have member : row ∈
              (ingestHistory [pageAs "text/markdown" [104, 105] 10] .empty).documents :=
            moves.member
          rw [ingestHistory_note] at member
          obtain rfl := List.mem_singleton.mp member
          obtain rfl : fetched = ⟨"status", some "text/html", endedNote⟩ :=
            Except.ok.inj (moves.reads.fetches.symm.trans (endedNote_html 11).fetches)
          exact ⟨_, (endedNote_markdown 11).parsed, rfl⟩
      | cons _ first =>
          have lengths := congrArg List.length same
          simp only [List.length_append, List.length_cons, List.length_nil] at lengths
          omega

/-- The row holds HTML as markdown. -/
theorem documents_reparse_note_html :
    ∃ r ∈ (ingestHistory [pageAs "text/markdown" [104, 105] 10, pageAs "text/html" paragraph 11]
      .empty).documents, ¬ r.Reparses plainParsers := by
  have history : ingestHistory [pageAs "text/markdown" [104, 105] 10,
      pageAs "text/html" paragraph 11] .empty = ((pageAs "text/html" paragraph 11).2.program.serial
        postgres ⟨.empty, []⟩ ⟨ingestHistory [pageAs "text/markdown" [104, 105] 10] .empty,
          false⟩).2.db := rfl
  rw [history, ingestHistory_note, (paragraph_html 11).program_eq]
  refine ⟨noteRow.moved (pageAs "text/html" paragraph 11).2.env
    ⟨"status", some "text/html", paragraph⟩ (spelledHash paragraph), by decide, ?_⟩
  rintro ⟨parsed, again, text⟩
  have markdown := (paragraph_markdown 10).parsed
  obtain rfl := Except.ok.inj (again.symm.trans markdown)
  exact absurd text (by decide)

end IncidentPipeline
