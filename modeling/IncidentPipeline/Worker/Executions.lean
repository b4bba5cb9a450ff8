import IncidentPipeline.Worker.Stages

/-!
# The programs, statement by statement

What each program of the system has sent when it ends, whatever is committed between its
statements. The claim comes first in the log of a worker's pass; the rest of the log is
what `StageLog` says, and the mark comes last.
-/

namespace IncidentPipeline

open Python Tables Transactions

variable {maxAttempts : Nat} {d : Database} {job : Job} {claimedAt : Time}

/-- The log of a transaction that has claimed a job. -/
def claimLog (job : Job) (claimedAt : Time) : List RowOp := [.updateJob job (job.claimed claimedAt)]

/-- What a transaction sees that has only claimed a job. -/
theorem seen_claimLog {visible : Database}
    (seen : postgres.replay (claimLog job claimedAt ++ []) d = .ok visible) :
    visible = { d with jobs := replaceRow Job.id job.id (job.claimed claimedAt) d.jobs } := by
  rw [List.append_nil] at seen
  exact (replay_singleton.mp seen).2

/-! ### Ingest -/

/-- After a lookup nothing has been sent, and a document that was found stays. -/
def LookedUp (p : Document → Bool) (r : Except Exc (Option Document)) (ops : List RowOp)
    (d : Database) : Prop :=
  ops = [] ∧ ∀ document, r = .ok (some document) → p document = true ∧ HasDocument d document.id

theorem findDocument_sent {texts : List String} {p : Document → Bool} :
    (Prog.execute (select texts fun d => d.documents.find? p)).wp postgres (jobProtocol maxAttempts)
      (Sent (claimLog job claimedAt) (LookedUp p)) ⟨claimLog job claimedAt ++ [], false⟩ d := by
  apply wp_select
  · exact fun e d' _ _ => ⟨rfl, fun _ h => by cases h⟩
  · intro d₁ visible d₂ _ _ _ seen later
    refine ⟨rfl, fun document found => ?_⟩
    rw [seen_claimLog seen, Except.ok.injEq] at found
    exact ⟨List.find?_some found,
      later.1.documents _ ⟨document, List.mem_of_find?_eq_some found, rfl⟩⟩

/-- What an ingest has sent. -/
def Ingests (r : Except Exc IngestResult) (ops : List RowOp) (d : Database) : Prop :=
  match r with
  | .ok result => DocumentLog d result.documentId ops
  | .error _ => ops = []

theorem updateProvenance_sent {env : IngestEnv} {id : Uuid} {fetched : FetchedDocument}
    {contentHash : String} (found : HasDocument d id) :
    (Prog.execute (updateProvenanceSql env id fetched contentHash)).wp postgres
      (jobProtocol maxAttempts)
      (Sent (claimLog job claimedAt) fun r ops e =>
        match r with
        | .ok _ => DocumentLog e id ops
        | .error _ => ops = []) ⟨claimLog job claimedAt ++ [], false⟩ d := by
  apply wp_statement
  · intro context e reply ops answer o ho
    cases answer
    obtain ⟨document, _, rfl⟩ := List.mem_map.mp ho
    rfl
  · exact fun _ _ _ _ => rfl
  · intro context d₁ visible reply more finish d₂ rely _ _ _ answer _ later
    cases answer
    refine .known (later.1.documents _ (rely.1.documents _ found)) fun o ho => ?_
    obtain ⟨document, _, rfl⟩ := List.mem_map.mp ho
    exact ⟨document, _, rfl, rfl⟩

theorem insertDocument_sent {row : Document} {result : IngestResult}
    (names : result.documentId = row.id) :
    ((Prog.execute (insertDocumentSql row)).bind fun _ => .ret (.ok result)).wp postgres
      (jobProtocol maxAttempts) (Sent (claimLog job claimedAt) Ingests)
      ⟨claimLog job claimedAt ++ [], false⟩ d := by
  have inserts := @wp_insert maxAttempts Unit (claimLog job claimedAt) [] d (insertDocumentSql row)
    [.insertDocument row] (fun _ _ _ _ answer => by cases answer; rfl) (by simp [claimOf])
  refine wp_sent inserts ?_ fun _ _ _ failed => failed.1
  rintro _ _ d₁ _ rfl
  refine wp_ret_sent fun d' _ _ _ => ?_
  show DocumentLog d' result.documentId [.insertDocument row]
  rw [names]
  exact .new row

theorem ingestSource_sent {env : IngestEnv} {now : Time} {sourceId : Uuid} {url : String} :
    (ingestSource env now sourceId url).wp postgres (jobProtocol maxAttempts)
      (Sent (claimLog job claimedAt) Ingests) ⟨claimLog job claimedAt ++ [], false⟩ d := by
  rw [ingestSource]
  simp only [Prog.bind_eq, Prog.ofExcept]
  cases fetch env.http url with
  | error e => exact wp_ret_sent fun _ _ _ _ => rfl
  | ok fetched =>
      rw [Prog.bind_ret_ok]
      refine wp_sent findDocument_sent ?_ fun _ _ _ looked => looked.1
      rintro sameBytes _ d₁ _ ⟨rfl, known⟩
      cases sameBytes with
      | some document =>
          refine wp_ret_sent fun d' rely _ _ => .known ?_ (by simp)
          exact rely.1.documents _ (known document rfl).2
      | none =>
          cases detectFormat env.repr fetched.url fetched.contentType fetched.rawBytes with
          | error e => exact wp_ret_sent fun _ _ _ _ => rfl
          | ok format =>
              rw [Prog.bind_ret_ok]
              cases parseDocument env.parsers fetched.rawBytes format with
              | error e => exact wp_ret_sent fun _ _ _ _ => rfl
              | ok parsed =>
                  rw [Prog.bind_ret_ok]
                  refine wp_sent findDocument_sent ?_ fun _ _ _ looked => looked.1
                  rintro sameText _ d₂ _ ⟨rfl, known⟩
                  cases sameText with
                  | some document =>
                      refine wp_sent (updateProvenance_sent (known document rfl).2) ?_
                        fun _ _ _ nothing => nothing
                      exact fun _ ops d₃ _ log => wp_ret_sent fun d' rely _ _ => log.grow rely.1
                  | none => exact insertDocument_sent rfl

/-- A job with a document where its kind asks for one is enqueued and never refused. -/
theorem enqueue_sent {log ops : List RowOp} {jobId sourceId : Uuid} {kind : JobKind}
    {documentId : Option Uuid} {now : Time}
    (sane : ¬ decide (kind = .extract) ≠ documentId.isSome) :
    (enqueue jobId now sourceId kind documentId).wp postgres (jobProtocol maxAttempts)
      (Sent log fun r sent _ => r = .ok jobId ∧
        sent = ops ++ [.insertJob (newJob jobId sourceId kind documentId now)])
      ⟨log ++ ops, false⟩ d := by
  have inserts := @wp_insert maxAttempts Unit log ops d
    (sql fun _ _ => .ok ((), [.insertJob (newJob jobId sourceId kind documentId now)]))
    [.insertJob (newJob jobId sourceId kind documentId now)]
    (fun _ _ _ _ answer => by cases answer; rfl) (by simp [claimOf])
  rw [enqueue]
  rw [if_neg sane]
  refine wp_sent inserts ?_ fun _ _ _ failed => by cases failed.2
  rintro _ _ d₁ _ rfl
  exact wp_ret_sent fun _ _ _ _ => ⟨rfl, rfl⟩

theorem processIngest_sent {env : JobEnv} {claimed : Job} (kind : job.kind = .ingest)
    (source : claimed.sourceId = job.sourceId) :
    (processIngest env claimed).wp postgres (jobProtocol maxAttempts)
      (Sent (claimLog job claimedAt) fun r ops e => StageLog job e r ops)
      ⟨claimLog job claimedAt ++ [], false⟩ d := by
  rw [processIngest]
  have reads : (Prog.execute (select [] fun d => d.sources.find? (·.id = claimed.sourceId))).wp
      postgres (jobProtocol maxAttempts) (Sent (claimLog job claimedAt) fun _ ops _ => ops = [])
      ⟨claimLog job claimedAt ++ [], false⟩ d :=
    wp_select (fun _ _ _ _ => rfl) fun _ _ _ _ _ _ _ _ => rfl
  refine wp_sent reads ?_ fun x ops e nothing => nothing ▸ .nothing x
  rintro source? _ d₁ _ rfl
  cases source? with
  | none => exact wp_ret_sent fun _ _ _ _ => .nothing _
  | some row =>
      refine wp_sent ingestSource_sent ?_ fun x ops e nothing => ?_
      · intro result ops d₂ _ log
        refine wp_sent (enqueue_sent (by simp)) ?_ fun x _ _ failed => by cases failed.1
        rintro jobId _ d₃ grows ⟨_, rfl⟩
        refine wp_ret_sent fun d' rely _ _ => ?_
        rw [source]
        exact .ingested _ _ kind ((log.grow grows).grow rely.1)
      · rw [show ops = [] from nothing]
        exact .nothing x

/-! ### Extraction -/

/-- The rows that go with a complete extraction. -/
structure ReviewRows (x : Extraction) (rows : List FieldReview) : Prop where
  complete : x.status = .complete
  filled : x.Filled
  created : rows.map FieldReview.extracted = x.expected
  owned : ∀ r ∈ rows, r.extractionId = x.id

theorem reviewRows_of_complete {ids : Nat → Uuid} {id documentId : Uuid} {now : Time}
    {client : LLMClient} {record confidence : Json} {attempts : List Attempt}
    (filled : ∀ field ∈ recordFields, (∃ value, record.member? field = some value) ∧
      ∃ score, confidence.member? field = some score ∧
        ((∃ q, score = .num q) ∨ score = .nonFinite .nan)) :
    ReviewRows (completeExtraction id now client documentId record confidence attempts)
      (fieldReviewRows ids id now record confidence) := by
  refine ⟨rfl, ⟨record, dumpConfidence confidence, rfl, rfl, fun field member => ?_⟩, ?_, ?_⟩
  · obtain ⟨value, score, found, typed⟩ := filled field member
    refine ⟨value, dumpFloat score, by rw [member?_dumpConfidence, found]; rfl, ?_⟩
    obtain ⟨q, rfl⟩ | rfl := typed
    · exact .inr ⟨q, rfl⟩
    · exact .inl rfl
  · rw [fieldReviewRows]
    show _ = recordFields.map fun field =>
      (field, memberOf record field, numberOf (memberOf (dumpConfidence confidence) field))
    simp only [numberOf_dumpConfidence]
    rw [← List.zipIdx_map_fst 0 recordFields, List.map_map, List.map_map,
      List.zipIdx_map_fst 0 recordFields]
    rfl
  · intro r hr
    obtain ⟨f, _, rfl⟩ := List.mem_map.mp hr
    rfl

/-- The names of the fields are texts the driver takes. -/
theorem reviewFields_taken {ids : Nat → Uuid} {id : Uuid} {now : Time} {record confidence : Json} :
    refusedText ((fieldReviewRows ids id now record confidence).map FieldReview.field) = none := by
  have names : (fieldReviewRows ids id now record confidence).map FieldReview.field =
      recordFields := by
    rw [fieldReviewRows]
    rw [List.map_map]
    exact List.zipIdx_map_fst 0 recordFields
  rw [names]
  decide

/-- The row operations of a complete extraction before the routing pass. -/
def extractionLog (x : Extraction) (rows : List FieldReview) : List RowOp :=
  .insertExtraction x :: rows.map .insertFieldReview

/-- What `extract_document` has sent. -/
def Extracts (r : Except Exc ExtractOutcome) (ops : List RowOp) (d : Database) : Prop :=
  match r with
  | .error _ => ops = [] ∨ ∃ x, ops = [.insertExtraction x] ∧ HasDocument d x.documentId ∧
      x.status = .failed
  | .ok outcome =>
      (outcome.wasDuplicate = true ∧ ops = []) ∨
        (outcome.wasDuplicate = false ∧ ∃ x rows, ops = extractionLog x rows ∧
          HasDocument d x.documentId ∧ ReviewRows x rows)

theorem insertExtraction_sent {log ops : List RowOp} {x : Extraction} :
    (Prog.execute (insertExtractionSql x)).wp postgres (jobProtocol maxAttempts)
      (Sent log (Inserts (insertExtractionSql x) ops [.insertExtraction x]))
      ⟨log ++ ops, false⟩ d := by
  apply wp_insert
  · intro context visible reply sent answer
    simp only [insertExtractionSql] at answer
    split at answer <;> cases answer
    rfl
  · simp [claimOf]

/-- The review rows are never refused. -/
theorem createFieldReviews_sent {log ops : List RowOp} {ids : Nat → Uuid} {now : Time}
    {id : Uuid} {record confidence : Json} :
    (createFieldReviews ids now id record confidence).wp postgres (jobProtocol maxAttempts)
      (Sent log fun r sent _ => r.toBool = true ∧
        sent = ops ++ (fieldReviewRows ids id now record confidence).map .insertFieldReview)
      ⟨log ++ ops, false⟩ d := by
  have taken := @reviewFields_taken ids id now record confidence
  rw [createFieldReviews]
  generalize fieldReviewRows ids id now record confidence = rows at taken
  have inserts : (Prog.execute (insertFieldReviewsSql rows)).wp postgres (jobProtocol maxAttempts)
      (Sent log (Inserts (insertFieldReviewsSql rows) ops (rows.map .insertFieldReview)))
      ⟨log ++ ops, false⟩ d := by
    apply wp_insert
    · intro context visible reply sent answer
      simp only [insertFieldReviewsSql] at answer
      split at answer <;> cases answer
      rfl
    · intro o ho
      obtain ⟨row, _, rfl⟩ := List.mem_map.mp ho
      rfl
  refine wp_sent inserts ?_ fun x sent e failed => ?_
  · rintro _ _ d₁ _ rfl
    exact wp_ret_sent fun _ _ _ _ => ⟨rfl, rfl⟩
  · cases taken.symm.trans failed.2

theorem extractDocument_sent {rt : Runtime} {ids : ExtractIds} {now : Time} {client : LLMClient}
    {attempts : Nat} {documentId : Uuid} :
    (extractDocument rt ids now client attempts documentId).wp postgres (jobProtocol maxAttempts)
      (Sent (claimLog job claimedAt) Extracts) ⟨claimLog job claimedAt ++ [], false⟩ d := by
  rw [extractDocument]
  have looks : (Prog.execute (select (identityTexts client) fun d =>
      d.extractions.find? (·.isCompleteFor client documentId))).wp postgres
      (jobProtocol maxAttempts) (Sent (claimLog job claimedAt) fun _ ops _ => ops = [])
      ⟨claimLog job claimedAt ++ [], false⟩ d :=
    wp_select (fun _ _ _ _ => rfl) fun _ _ _ _ _ _ _ _ => rfl
  refine wp_sent looks ?_ fun _ _ _ nothing => .inl nothing
  rintro existing _ d₁ _ rfl
  cases existing with
  | some row => exact wp_ret_sent fun _ _ _ _ => .inl ⟨rfl, rfl⟩
  | none =>
      refine wp_sent findDocument_sent ?_ fun _ _ _ looked => .inl looked.1
      rintro found _ d₂ _ ⟨rfl, known⟩
      cases found with
      | none => exact wp_ret_sent fun _ _ _ _ => .inl rfl
      | some document =>
          obtain ⟨same, there⟩ := known document rfl
          obtain rfl : document.id = documentId := of_decide_eq_true same
          dsimp only
          cases extracted : extract rt client attempts document.text document.title
            document.sourceUrl with
          | error e =>
              refine wp_sent insertExtraction_sent ?_ fun _ _ _ failed => .inl failed.1
              rintro _ _ d₃ grows rfl
              refine wp_ret_sent fun d' rely _ _ => .inr ⟨_, rfl, ?_, rfl⟩
              exact rely.1.documents _ (grows.documents _ there)
          | ok result =>
              refine wp_sent insertExtraction_sent ?_ fun _ _ _ failed => .inl failed.1
              rintro _ _ d₃ inserted rfl
              refine wp_sent createFieldReviews_sent ?_ fun _ _ _ failed => by cases failed.1
              rintro _ _ d₄ reviewed ⟨_, rfl⟩
              refine wp_ret_sent fun d' rely _ _ => .inr ⟨rfl, _, _, rfl, ?_, ?_⟩
              · exact rely.1.documents _ (reviewed.documents _ (inserted.documents _ there))
              · exact reviewRows_of_complete fun field member =>
                  (extract_filled extracted field member).imp_left overrideTitle_member

/-! ### The routing pass -/

/-- What a transaction sees after a complete extraction. -/
theorem seen_extractionLog {x : Extraction} {rows : List FieldReview} {visible : Database}
    (table : ReviewTable d.fieldReviews)
    (seen : postgres.replay (claimLog job claimedAt ++ extractionLog x rows) d = .ok visible) :
    visible.fieldReviews = d.fieldReviews ++ rows := by
  obtain ⟨d₁, claimed, later⟩ := Server.replay_append_ok.mp seen
  obtain ⟨_, rfl⟩ := replay_singleton.mp claimed
  obtain ⟨d₂, first, inserted⟩ := Server.replay_cons_ok.mp later
  obtain ⟨_, rfl⟩ := RowOp.apply_eq_ok.mp first
  obtain ⟨rfl, _⟩ := replay_insertFieldReviews (by exact table) inserted
  rfl

theorem routeSql_sent {collation : Collation} {now : Time} {floor : ℚ} {limit : Option Nat}
    {x : Extraction} {rows : List FieldReview} :
    (Prog.execute (routeSql collation now floor limit)).wp postgres (jobProtocol maxAttempts)
      (Sent (claimLog job claimedAt) fun r ops e => r.toBool = true ∧
        ∃ routes, ops = extractionLog x rows ++ routes ∧ Routes rows e routes)
      ⟨claimLog job claimedAt ++ extractionLog x rows, false⟩ d := by
  apply wp_statement
  · intro context e reply ops answer o ho
    cases answer
    obtain ⟨r, _, rfl⟩ := List.mem_map.mp ho
    rfl
  · intro e d' reason _
    cases reason
  · intro context d₁ visible reply more finish d₂ _ inv _ seen answer _ later
    have shown := seen_extractionLog inv.extracted.table seen
    cases answer
    refine ⟨rfl, _, rfl, Routes.grow (fun o ho => ?_) later.1⟩
    obtain ⟨r, member, rfl⟩ := List.mem_map.mp ho
    exact ⟨r, now, rfl, r, shown ▸ List.mem_of_mem_filter member, rfl⟩

/-- A pass under a sane budget is never refused. -/
theorem routePending_sent {collation : Collation} {now : Time} {floor : ℚ} {budget : Option Nat}
    {x : Extraction} {rows : List FieldReview} :
    (routePending collation now floor (budget.map Int.ofNat)).wp postgres (jobProtocol maxAttempts)
      (Sent (claimLog job claimedAt) fun r ops e => r.toBool = true ∧
        ∃ routes, ops = extractionLog x rows ++ routes ∧ Routes rows e routes)
      ⟨claimLog job claimedAt ++ extractionLog x rows, false⟩ d := by
  have sane : ¬ (budget.map Int.ofNat).any (· < 0) = true := by
    cases budget <;> simp
  have reads : ∀ {ρ : Type} {read : Database → ρ} {e : Database},
      (Prog.execute (select [] read)).wp postgres (jobProtocol maxAttempts)
        (Sent (claimLog job claimedAt) fun r ops _ => r.toBool = true ∧ ops = extractionLog x rows)
        ⟨claimLog job claimedAt ++ extractionLog x rows, false⟩ e := fun {ρ read e} =>
    wp_select (fun _ _ reason _ => by cases reason) fun _ _ _ _ _ _ _ _ => ⟨rfl, rfl⟩
  rw [routePending]
  rw [if_neg sane]
  refine wp_sent reads ?_ fun _ _ _ failed => by cases failed.1
  rintro _ _ d₁ _ ⟨_, rfl⟩
  refine wp_sent reads ?_ fun _ _ _ failed => by cases failed.1
  rintro eligible _ d₂ _ ⟨_, rfl⟩
  refine wp_sent reads ?_ fun _ _ _ failed => by cases failed.1
  rintro outstanding _ d₃ _ ⟨_, rfl⟩
  show Prog.wp _ _ (if _ then _ else _) _ _ _
  split
  · exact wp_ret_sent fun _ _ _ _ => ⟨rfl, [], (List.append_nil _).symm, by simp [Routes]⟩
  · refine wp_sent routeSql_sent ?_ fun _ _ _ failed => by cases failed.1
    rintro routed _ d₄ _ ⟨_, routes, rfl, all⟩
    exact wp_ret_sent fun d' rely _ _ => ⟨rfl, routes, rfl, all.grow rely.1⟩

theorem processExtract_sent {cfg : Settings} {env : JobEnv} {claimed : Job}
    (kind : job.kind = .extract) :
    (processExtract cfg env claimed).wp postgres (jobProtocol maxAttempts)
      (Sent (claimLog job claimedAt) fun r ops e => StageLog job e r ops)
      ⟨claimLog job claimedAt ++ [], false⟩ d := by
  rw [processExtract]
  cases claimed.documentId with
  | none => exact wp_ret_sent fun _ _ _ _ => .nothing _
  | some documentId =>
      simp only [Prog.bind_eq, Prog.ofExcept]
      cases env.client with
      | error e => exact wp_ret_sent fun _ _ _ _ => .nothing _
      | ok client =>
          rw [Prog.bind_ret_ok]
          refine wp_sent extractDocument_sent ?_ ?_
          · intro outcome ops d₁ _ sent
            obtain ⟨duplicate, rfl⟩ | ⟨first, x, rows, rfl, document, created⟩ := sent
            · rw [if_pos duplicate]
              exact wp_ret_sent fun _ _ _ _ => .duplicate kind
            · rw [if_neg (by simp [first])]
              refine wp_sent routePending_sent ?_ fun _ _ _ failed => by cases failed.1
              rintro _ _ d₂ grows ⟨_, routes, rfl, routed⟩
              refine wp_ret_sent fun d' rely _ _ => ?_
              exact .extracted kind (rely.1.documents _ (grows.documents _ document))
                created.complete created.filled created.created created.owned (routed.grow rely.1)
          · intro e ops d₁ sent
            obtain rfl | ⟨x, rfl, document, status⟩ := sent
            · exact .nothing e
            · exact .failed e kind document status

theorem processJob_sent {cfg : Settings} {env : JobEnv} :
    (processJob cfg env (job.claimed claimedAt)).wp postgres (jobProtocol maxAttempts)
      (Sent (claimLog job claimedAt) fun r ops e => StageLog job e r ops)
      ⟨claimLog job claimedAt ++ [], false⟩ d := by
  rw [processJob]
  cases kind : (job.claimed claimedAt).kind with
  | ingest => exact processIngest_sent kind rfl
  | extract => exact processExtract_sent kind

/-! ### The mark -/

section Mark

variable {result : Except Exc Unit} {ops : List RowOp}

theorem held_claimLog (log : StageLog job d result ops) :
    held ⟨claimLog job claimedAt ++ ops, false⟩ = [job] := by
  have nothing : ops.filterMap claimOf = [] := List.filterMap_eq_nil_iff.mpr log.quiet
  rw [held_mk, List.filterMap_append, nothing, List.append_nil]
  rfl

/-- The transaction sees its job in the version of the claim. -/
theorem seen_job {visible : Database} (log : StageLog job d result ops)
    (inv : PipelineInvariant maxAttempts d) (member : job ∈ d.jobs)
    (seen : postgres.replay (claimLog job claimedAt ++ ops) d = .ok visible) :
    visible.jobs.filter (·.id = job.id) = [job.claimed claimedAt] := by
  obtain ⟨d₁, claimed, staged⟩ := Server.replay_append_ok.mp seen
  obtain ⟨_, rfl⟩ := replay_singleton.mp claimed
  obtain ⟨new, jobs, fresh, _⟩ := log.change inv.extracted.table staged
  have there : job.claimed claimedAt ∈ replaceRow Job.id job.id (job.claimed claimedAt) d.jobs :=
    after_mem_replaceRow member rfl
  have none_new : new.filter (·.id = job.id) = [] :=
    filter_key_eq_nil fun j hj same => fresh j hj _ there same.symm
  have one := (inv.jobs.ids.replaceRow (job.claimed_id claimedAt)).filter_key there
  rw [jobs, List.filter_append, none_new, List.append_nil]
  exact one

/-- The mark writes the claimed version of the job. -/
theorem updateJob_sent {texts : List String} {set : Job → Job}
    (settles : ∀ j, (set j).status ≠ .running) (log : StageLog job d result ops) :
    (Prog.execute (updateJobSql job.id texts set)).wp postgres (jobProtocol maxAttempts)
      (Sent (claimLog job claimedAt) fun r sent e => r.toBool = true → StageLog job e result ops ∧
        sent = ops ++ [.updateJob (job.claimed claimedAt) (set (job.claimed claimedAt))])
      ⟨claimLog job claimedAt ++ ops, false⟩ d := by
  apply wp_statement
  · intro context e reply more answer o ho
    cases answer
    obtain ⟨j, _, rfl⟩ := List.mem_map.mp ho
    exact if_neg (settles j)
  · intro e d' _ _ done
    cases done
  · intro context d₁ visible reply more finish d₂ rely inv own seen answer _ later _
    have sent := log.grow rely.1
    have member : job ∈ d₁.jobs := (own job (by simp [held_claimLog log])).1
    have one := seen_job sent inv member seen
    cases answer
    refine ⟨sent.grow later.1, ?_⟩
    rw [one]
    rfl

/-- The number of attempts that the failure handler reads. -/
theorem readJob_sent (log : StageLog job d result ops) :
    (Prog.execute (select [] fun d => d.jobs.find? (·.id = job.id))).wp postgres
      (jobProtocol maxAttempts)
      (Sent (claimLog job claimedAt) fun r sent e => r = .ok (some (job.claimed claimedAt)) ∧
        sent = ops ∧ StageLog job e result ops)
      ⟨claimLog job claimedAt ++ ops, false⟩ d := by
  apply wp_select
  · intro e d' reason _
    cases reason
  · intro d₁ visible d₂ rely inv own seen later
    have sent := log.grow rely.1
    have member : job ∈ d₁.jobs := (own job (by simp [held_claimLog log])).1
    have one := seen_job sent inv member seen
    refine ⟨congrArg Except.ok ?_, rfl, sent.grow later.1⟩
    rw [← List.head?_filter, one]
    rfl

/-- The mark has been sent after the operations of the stage. -/
def Marked (maxAttempts : Nat) (job : Job) (claimedAt now : Time) (result : Except Exc Unit)
    (ops : List RowOp) (d : Database) (sent : List RowOp) : Prop :=
  StageLog job d result ops ∧ sent = ops ++ [.updateJob (job.claimed claimedAt)
    ((job.claimed claimedAt).ended maxAttempts now result)]

theorem markSucceeded_sent (now : Time) (log : StageLog job d (.ok ()) ops) :
    (markSucceeded job.id now).wp postgres (jobProtocol maxAttempts)
      (Sent (claimLog job claimedAt) fun r sent e => r.toBool = true →
        Marked maxAttempts job claimedAt now (.ok ()) ops e sent)
      ⟨claimLog job claimedAt ++ ops, false⟩ d :=
  updateJob_sent (fun j => by simp [Job.succeed]) log

theorem markFailed_sent (now : Time) {e : Exc} (log : StageLog job d (.error e) ops) :
    (markFailed maxAttempts job.id e.message e.cls.isPermanentJobError).wp postgres
      (jobProtocol maxAttempts)
      (Sent (claimLog job claimedAt) fun r sent d' => r.toBool = true →
        Marked maxAttempts job claimedAt now (.error e) ops d' sent)
      ⟨claimLog job claimedAt ++ ops, false⟩ d := by
  -- either branch ends with one update of the claimed job
  have ends : ∀ {status : JobStatus} {d' : Database}, StageLog job d' (.error e) ops →
      status ≠ .running → status = failedStatus maxAttempts (job.attempts + 1) e →
      (Prog.execute (updateJobSql job.id [e.message] fun j => j.fail status e.message)).wp postgres
        (jobProtocol maxAttempts)
        (Sent (claimLog job claimedAt) fun r sent d' => r.toBool = true →
          Marked maxAttempts job claimedAt now (.error e) ops d' sent)
        ⟨claimLog job claimedAt ++ ops, false⟩ d' := by
    rintro status d' sent settles rfl
    exact updateJob_sent (fun j => settles) sent
  have settles : failedStatus maxAttempts (job.attempts + 1) e ≠ .running := by
    obtain dead | ⟨again, _⟩ := failedStatus_cases maxAttempts (job.attempts + 1) e <;> simp [*]
  rw [markFailed]
  split
  · next permanent =>
      have status : .deadLetter = failedStatus maxAttempts (job.attempts + 1) e :=
        (if_pos permanent).symm
      exact ends log (status ▸ settles) status
  · next transient =>
      refine wp_sent (readJob_sent log) ?_ fun _ _ _ failed => by cases failed.1
      rintro row _ d₁ _ ⟨read, rfl, kept⟩
      obtain rfl := Except.ok.inj read
      have status : retryStatus (job.attempts + 1) maxAttempts =
          failedStatus maxAttempts (job.attempts + 1) e := (if_neg transient).symm
      exact ends kept (status ▸ settles) status

theorem finishJob_sent {cfg : Settings} {now : Time} (same : cfg.jobMaxAttempts = maxAttempts)
    (log : StageLog job d result ops) :
    (finishJob cfg now (job.claimed claimedAt) result).wp postgres (jobProtocol maxAttempts)
      (Sent (claimLog job claimedAt) fun r sent e => r.toBool = true →
        Marked maxAttempts job claimedAt now result ops e sent)
      ⟨claimLog job claimedAt ++ ops, false⟩ d := by
  have returns : ∀ {sent : List RowOp} {d' : Database},
      Marked maxAttempts job claimedAt now result ops d' sent →
      (Prog.ret (.ok true) : Db Bool).wp postgres (jobProtocol maxAttempts)
        (Sent (claimLog job claimedAt) fun r sent e => r.toBool = true →
          Marked maxAttempts job claimedAt now result ops e sent)
        ⟨claimLog job claimedAt ++ sent, false⟩ d' :=
    fun marked => wp_ret_sent fun _ rely _ _ _ => ⟨marked.1.grow rely.1, marked.2⟩
  cases result with
  | ok u =>
      refine wp_sent (markSucceeded_sent now log) ?_ fun _ _ _ _ done => by cases done
      exact fun _ _ _ _ marked => returns (marked rfl)
  | error e =>
      show Prog.wp _ _ ((markFailed cfg.jobMaxAttempts _ _ _).bind _) _ _ _
      rw [same]
      refine wp_sent (markFailed_sent now log) ?_ fun _ _ _ _ done => by cases done
      exact fun _ _ _ _ marked => returns (marked rfl)

end Mark

/-! ### Whole transactions -/

/-- What a claim has sent. -/
def Claims (now : Time) (r : Except Exc (Option Job)) (s : Session RowOp) : Prop :=
  match r with
  | .ok none => s.log = []
  | .ok (some claimed) => ∃ job, claimed = job.claimed now ∧ job.status = .queued ∧
      s.log = claimLog job now
  | .error _ => True

/-- A claim takes a queued job that nobody holds. -/
theorem claimOne_sent {now visibilityTimeout : Time} :
    (claimOne now visibilityTimeout).wp postgres (jobProtocol maxAttempts)
      (fun r s _ => s.aborted = false → Claims now r s) .fresh d := by
  apply Prog.wp_execute
  intro d₁ context fault rely inv own
  have nothing : ∀ s : Session RowOp, held s = [] →
      (jobProtocol maxAttempts).guarantee context .fresh s ∧ Owns s d₁ := by
    intro s none_held
    refine ⟨fun j hj => ?_, fun j hj => ?_⟩ <;> rw [none_held] at hj <;> cases hj
  obtain ⟨e, reason, served⟩ | ⟨_, e, served⟩ |
      ⟨_, _, _, visible, reply, more, finish, seen, answer, written, served⟩ :=
    postgres.serve_cases (claimSql now visibilityTimeout) ⟨d₁, context, fault⟩ .fresh
  · cases reason
  · rw [served]
    obtain ⟨guarantee, owns⟩ := nothing ⟨[], true⟩ rfl
    exact ⟨guarantee, owns, fun d₂ _ _ _ alive => by cases alive⟩
  · rw [served]
    obtain rfl : d₁ = visible := by simpa using seen
    simp only [claimSql, sql] at answer
    split at answer
    · cases answer
      obtain ⟨guarantee, owns⟩ := nothing ⟨[], false⟩ rfl
      exact ⟨guarantee, owns, fun d₂ _ _ _ _ => rfl⟩
    · next job found =>
        cases answer
        obtain ⟨member, ready, free⟩ := claimTarget_spec found
        have queued : job.status = .queued := by
          rw [claimable] at ready
          obtain queued | running := Bool.or_eq_true_iff.mp ready
          · simpa using queued
          · simp [(inv.jobs.settled job member).idle] at running
        have only : ∀ j ∈ held ⟨claimLog job now, false⟩, j = job := fun j hj => by
          simpa using (show j ∈ [job] from hj)
        refine ⟨fun j hj => .inr ?_, fun j hj => ?_, fun d₂ _ _ _ _ => ⟨job, rfl, queued, rfl⟩⟩
        · exact only j hj ▸ free
        · exact only j hj ▸ ⟨member, queued⟩

/-- What a transaction that returns would change if it committed now. -/
def Commits (maxAttempts : Nat) (r : Except Exc Reply) (s : Session RowOp) (d : Database) : Prop :=
  s.aborted = false → r.toBool = true → ∀ d', postgres.replay s.log d = .ok d' →
    Change maxAttempts d ((held s).map Job.id) d'

theorem registerSource_commits (env : RegisterEnv) (url : String) :
    ((registerSource env url).bind fun ids => .ret (.ok (.registered ids.1 ids.2))).wp postgres
      (jobProtocol maxAttempts) (Commits maxAttempts) .fresh d := by
  have sends : (registerSource env url).wp postgres (jobProtocol maxAttempts)
      (Sent [] fun r sent _ => r.toBool = true →
        sent = [.insertSource ⟨env.sourceId, url, env.now⟩,
          .insertJob (newJob env.jobId env.sourceId .ingest none env.now)])
      ⟨[] ++ [], false⟩ d := by
    have inserts := @wp_insert maxAttempts Unit [] [] d
      (insertSourceSql ⟨env.sourceId, url, env.now⟩)
      [.insertSource ⟨env.sourceId, url, env.now⟩]
      (fun _ _ _ _ answer => by cases answer; rfl) (by simp [claimOf])
    refine wp_sent inserts ?_ fun _ _ _ _ done => by cases done
    rintro _ _ d₁ _ rfl
    refine wp_sent (enqueue_sent (by simp)) ?_ fun _ _ _ failed => by cases failed.1
    rintro jobId _ d₂ _ ⟨_, rfl⟩
    exact wp_ret_sent fun _ _ _ _ _ => rfl
  refine Prog.wp_then sends ?_ fun _ _ _ _ _ done => by cases done
  intro ids s d₁ sent
  refine Prog.wp_ret fun d₂ _ _ _ alive _ d' replayed => ?_
  obtain ⟨log, same, shape⟩ := sent alive
  rw [List.nil_append, shape rfl] at same
  rw [same] at replayed
  obtain ⟨d₃, first, second⟩ := Server.replay_cons_ok.mp replayed
  obtain ⟨freshSource, rfl⟩ := RowOp.apply_eq_ok.mp first
  obtain ⟨freshJob, rfl⟩ := replay_singleton.mp second
  have none_held : held s = [] := by
    rw [held_of_alive alive, same]
    rfl
  rw [none_held]
  refine .register env.now ?_ (Job.checks_ok freshJob)
  simpa [RowOp.checks] using freshSource

/-- What a pass of a worker has sent when it returns. -/
def Passed (maxAttempts : Nat) (now : Time) (r : Except Exc Bool) (s : Session RowOp)
    (d : Database) : Prop :=
  s.aborted = false → r.toBool = true →
    s.log = [] ∨ ∃ job result ops sent, job.status = .queued ∧
      Marked maxAttempts job now now result ops d sent ∧ s.log = claimLog job now ++ sent

theorem runOnce_passed {cfg : Settings} {env : JobEnv}
    (same : cfg.jobMaxAttempts = maxAttempts) :
    (runOnce cfg env).wp postgres (jobProtocol maxAttempts) (Passed maxAttempts env.now) .fresh d := by
  rw [runOnce]
  refine Prog.wp_then claimOne_sent ?_ fun _ _ _ _ _ done => by cases done
  intro found s d₁ claims
  cases alive : s.aborted with
  | true =>
      refine wp_of_aborted (fun r st e dead alive => ?_) alive
      cases dead.symm.trans alive
  | false =>
      cases found with
      | none => exact Prog.wp_ret fun _ _ _ _ alive _ => .inl (claims alive)
      | some claimed =>
          obtain ⟨job, rfl, queued, log⟩ := claims alive
          have session : s = ⟨claimLog job env.now ++ [], false⟩ := by
            rw [List.append_nil, ← log, ← alive]
          rw [session]
          have stage : (processJob cfg env (job.claimed env.now)).attempt.wp postgres
              (jobProtocol maxAttempts)
              (Sent (claimLog job env.now) fun r ops e =>
                ∃ result, r = .ok result ∧ StageLog job e result ops)
              ⟨claimLog job env.now ++ [], false⟩ d₁ := by
            refine Prog.wp_attempt (Prog.wp_mono processJob_sent fun r st e sent alive => ?_)
            obtain ⟨ops, shape, staged⟩ := sent alive
            exact ⟨ops, shape, r, rfl, staged⟩
          have whole := @wp_sent maxAttempts _ _ (claimLog job env.now) d₁ _
            (finishJob cfg env.now (job.claimed env.now)) _
            (fun r sent e => r.toBool = true →
              ∃ result ops, Marked maxAttempts job env.now env.now result ops e sent) _ stage
            (by
              intro ended ops d₂ _ sent
              obtain ⟨result, rfl, staged⟩ :
                  ∃ result, ended = result ∧ StageLog job d₂ result ops := by
                simpa using sent
              refine Prog.wp_mono (finishJob_sent same staged) fun r st e sent alive => ?_
              obtain ⟨more, shape, marked⟩ := sent alive
              exact ⟨more, shape, fun done => ⟨_, ops, marked done⟩⟩)
            (by
              rintro x ops e ⟨_, failed, _⟩
              cases failed)
          refine Prog.wp_mono whole fun r st e sent alive done => .inr ?_
          obtain ⟨more, shape, marked⟩ := sent alive
          obtain ⟨result, ops, marked⟩ := marked done
          exact ⟨job, result, ops, more, queued, marked, shape⟩

theorem runOnce_commits {cfg : Settings} {env : JobEnv} (same : cfg.jobMaxAttempts = maxAttempts) :
    ((runOnce cfg env).bind fun claimed => .ret (.ok (.worked claimed))).wp postgres
      (jobProtocol maxAttempts) (Commits maxAttempts) .fresh d := by
  refine Prog.wp_then (runOnce_passed same) ?_ fun _ _ _ _ _ done => by cases done
  intro claimed s d₁ passed
  refine Prog.wp_ret fun d₂ rely inv own alive _ d' replayed => ?_
  obtain nothing | ⟨job, result, ops, sent, queued, ⟨staged, rfl⟩, log⟩ := passed alive rfl
  · rw [nothing, Server.replay_nil, Except.ok.injEq] at replayed
    rw [held_of_alive alive, nothing, ← replayed]
    exact .idle
  · have settled : ((job.claimed env.now).ended maxAttempts env.now result).status ≠ .running := by
      cases result with
      | ok u => simp [Job.ended, Job.succeed]
      | error e =>
          obtain dead | ⟨again, _⟩ := failedStatus_cases maxAttempts (job.attempts + 1) e
          · exact fun running => by cases dead.symm.trans running
          · exact fun running => by cases again.symm.trans running
    have holds : held s = [job] := by
      have nothing : ops.filterMap claimOf = [] := List.filterMap_eq_nil_iff.mpr staged.quiet
      have mark : [RowOp.updateJob (job.claimed env.now)
          ((job.claimed env.now).ended maxAttempts env.now result)].filterMap claimOf = [] := by
        rw [List.filterMap_eq_nil_iff]
        intro o ho
        rw [List.mem_singleton.mp ho]
        exact if_neg settled
      rw [held_of_alive alive, log, List.filterMap_append, List.filterMap_append, nothing, mark]
      rfl
    have member : job ∈ d₂.jobs := (own job (by simp [holds])).1
    rw [holds]
    rw [log, ← List.append_assoc] at replayed
    exact (staged.grow rely.1).work inv member queued replayed

theorem workerProgram_commits {allowed : Settings → JobEnv → Prop} {p : Db Reply}
    (program : WorkerProgram maxAttempts allowed p) :
    p.wp postgres (jobProtocol maxAttempts) (Commits maxAttempts) .fresh d := by
  cases program with
  | register env url => exact registerSource_commits env url
  | run same meets => exact runOnce_commits same

end IncidentPipeline
