import IncidentPipeline.Ingest.Plan
import IncidentPipeline.Review.States
import IncidentPipeline.Scripts.SeedCorpus

/-!
# What one entry of the corpus writes

`seedPlan` says what the transaction of an entry comes to, or what it raises. It reads the
documents and the extractions, and none of the identifiers and times that the transaction is
given; `seedEntry_computes` is its refinement.
-/

namespace IncidentPipeline.SeedCorpus

open Python Pydantic Tables Transactions

/-- An entry of the manifest that the report has. -/
structure Entry where
  doc : ManifestDocument
  reportDoc : ReportDocument

/-- The ingest that an entry meets, apart from its identifier and its time. -/
def SeedWorld.reads (world : SeedWorld) : IngestEnv :=
  ⟨world.http, world.parsers, world.sha256, world.rt.repr, 0, 0⟩

structure Replay where
  extraction : ReportExtraction
  output : Json

/-- What is replayed onto a document that is there already, or onto a new one. -/
def replayPlan (world : SeedWorld) (reportDoc : ReportDocument) (document : Option Uuid)
    (extractions : List Extraction) : Except Exc (Option Replay) :=
  match reportDoc.extraction with
  | none => .error notSubscriptable
  | some extraction =>
      if extraction.status ≠ .complete then .ok none
      else do
        refuse extraction.texts
        if document.any fun id => extractions.any (extraction.isReplayed id) then return none
        else do
          let output ← recordedOutput world extraction
          if (extraction.row 0 0 0 output).jsonHasNul then throw unsupportedEscape
          return some ⟨extraction, output⟩

structure SeedPlan where
  ingest : IngestPlan
  replay : Option Replay

def seedPlan (world : SeedWorld) (entry : Entry) (d : Database) : Except Exc SeedPlan := do
  refuse [entry.doc.url]
  let ingest ← ingestPlan world.reads entry.doc.url d.documents
  let replay ← replayPlan world entry.reportDoc (ingest.row?.map Document.id) d.extractions
  return ⟨ingest, replay⟩

/-! ### The tables after a plan -/

/-- The source of a URL, an existing one if there is one. -/
def Draw.sourceOf (draw : Draw) (url : String) (sources : List Source) : Uuid :=
  (sources.find? (·.url = url)).elim draw.sourceId Source.id

/-- The sources with one of the URL. -/
def Draw.withSource (draw : Draw) (url : String) (sources : List Source) : List Source :=
  (sources.find? (·.url = url)).elim (sources ++ [⟨draw.sourceId, url, draw.now⟩]) fun _ => sources

def Replay.row (replay : Replay) (draw : Draw) (documentId : Uuid) : Extraction :=
  replay.extraction.row draw.extractionId documentId draw.now replay.output

def Replay.reviews (replay : Replay) (draw : Draw) : List FieldReview :=
  fieldReviewRows draw.reviews draw.extractionId draw.now (memberOf replay.output "record")
    (memberOf replay.output "confidence")

def SeedPlan.documentId (plan : SeedPlan) (draw : Draw) : Uuid :=
  plan.ingest.row?.elim draw.documentId Document.id

def SeedPlan.apply (plan : SeedPlan) (world : SeedWorld) (draw : Draw) (url : String)
    (d : Database) : Database where
  sources := draw.withSource url d.sources
  documents := plan.ingest.apply (world.env draw) draw.now (draw.sourceOf url d.sources) d.documents
  jobs := d.jobs
  extractions := d.extractions ++ (plan.replay.map (·.row draw (plan.documentId draw))).toList
  fieldReviews := d.fieldReviews ++ plan.replay.elim [] (·.reviews draw)

/-- What a transaction that adds to these tables relies on. -/
structure Legal (d : Database) : Prop where
  documents : DocumentTable d.documents
  reviews : LegalReviews d.fieldReviews

/-- No row has the identifiers of the draw that a replay uses, or refers to them. -/
structure Draw.FreshReplay (draw : Draw) (d : Database) : Prop where
  extraction : ∀ x ∈ d.extractions, x.id ≠ draw.extractionId
  reviews : ∀ r ∈ d.fieldReviews, ∀ n, r.id ≠ draw.reviews n
  unreviewed : ∀ r ∈ d.fieldReviews, r.extractionId ≠ draw.extractionId

/-- Nor any other identifier of the draw. -/
structure Draw.Fresh (draw : Draw) (d : Database) : Prop extends draw.FreshReplay d where
  source : ∀ s ∈ d.sources, s.id ≠ draw.sourceId
  document : ∀ o ∈ d.documents, o.id ≠ draw.documentId
  unextracted : ∀ x ∈ d.extractions, x.documentId ≠ draw.documentId

section Refinement

variable {world : SeedWorld} {draw : Draw} {url : String} {d : Database}

theorem seedSource_computes (fresh : ∀ s ∈ d.sources, s.id ≠ draw.sourceId) :
    (seedSource draw url).Computes postgres draw.context d
      ((refuse [url]).map fun _ => (draw.sourceOf url d.sources,
        { d with sources := draw.withSource url d.sources })) := by
  rw [seedSource, Draw.sourceOf, Draw.withSource]
  cases taken : refuse [url] with
  | error e => exact computes_select_refused taken
  | ok _ =>
      refine computes_select_bind taken ?_
      cases existing : d.sources.find? (·.url = url) with
      | some row => rfl
      | none =>
          have inserted : postgres.replay [.insertSource ⟨draw.sourceId, url, draw.now⟩] d =
              .ok { d with sources := d.sources ++ [⟨draw.sourceId, url, draw.now⟩] } := by
            refine replay_singleton.mpr ⟨?_, rfl⟩
            simpa [RowOp.checks] using fresh
          exact Prog.computes_bind_ok
            (Prog.computes_execute (refuse_ok.mp taken) rfl inserted) rfl

variable {reportDoc : ReportDocument} {documentId : Uuid} {document : Option Uuid}

/-- The identifier of a document, or of a new one that nothing refers to. -/
def Refers (document : Option Uuid) (documentId : Uuid) (extractions : List Extraction) : Prop :=
  document = some documentId ∨ document = none ∧ ∀ x ∈ extractions, x.documentId ≠ documentId

/-- Whether the extraction is found is known before the identifier of a new document is. -/
theorem Refers.found_iff {extractions : List Extraction}
    (refers : Refers document documentId extractions) (extraction : ReportExtraction) :
    document.any (fun id => extractions.any (extraction.isReplayed id)) =
      (extractions.find? (extraction.isReplayed documentId)).isSome := by
  obtain rfl | ⟨rfl, new⟩ := refers
  · exact List.isSome_find?.symm
  · rw [Option.any_none, eq_comm, Option.isSome_eq_false_iff, Option.isNone_iff_eq_none,
      List.find?_eq_none]
    intro x hx replayed
    rw [ReportExtraction.isReplayed, Bool.and_eq_true, decide_eq_true_eq] at replayed
    exact new x hx (congrArg Prod.fst replayed.1)

/-- A row that is not there yet can be inserted. -/
theorem replay_row {extraction : ReportExtraction} {id : Uuid} {now : Time} {output : Json}
    (fresh : ∀ x ∈ d.extractions, x.id ≠ id)
    (missing : d.extractions.find? (extraction.isReplayed documentId) = none) :
    postgres.replay [.insertExtraction (extraction.row id documentId now output)] d =
      .ok { d with extractions := d.extractions ++ [extraction.row id documentId now output] } := by
  refine replay_insertExtraction fresh (iff_of_true rfl rfl) fun y hy complete same => ?_
  refine List.find?_eq_none.mp missing y hy ?_
  rw [ReportExtraction.isReplayed, Bool.and_eq_true, decide_eq_true_eq, decide_eq_true_eq]
  exact ⟨same, complete⟩

/-- The row of the extraction and its review rows are inserted, or the server rejects them. -/
theorem inserts_computes {extraction : ReportExtraction} {output : Json}
    (legal : LegalReviews d.fieldReviews) (fresh : draw.FreshReplay d)
    (taken : refuse extraction.texts = .ok ())
    (missing : d.extractions.find? (extraction.isReplayed documentId) = none) :
    ((Prog.execute (insertExtractionSql
      (extraction.row draw.extractionId documentId draw.now output))).bind fun _ =>
        (createFieldReviews draw.reviews draw.now draw.extractionId (memberOf output "record")
          (memberOf output "confidence")).bind fun _ =>
            (.ret (.ok ()) : Db Unit)).Computes postgres draw.context d
      (if (extraction.row 0 0 0 output).jsonHasNul = true then .error unsupportedEscape
      else .ok ((), { d with
        extractions := d.extractions ++ [(Replay.mk extraction output).row draw documentId]
        fieldReviews := d.fieldReviews ++ (Replay.mk extraction output).reviews draw })) := by
  have sent : refusedText extraction.texts = none := refuse_ok.mp taken
  have same : (extraction.row draw.extractionId documentId draw.now output).jsonHasNul =
      (extraction.row 0 0 0 output).jsonHasNul := rfl
  by_cases nul : (extraction.row 0 0 0 output).jsonHasNul = true
  · rw [if_pos nul]
    exact Prog.computes_bind_error (Prog.computes_rejected sent (if_pos (same.trans nul)))
  · rw [if_neg nul]
    have clean : jsonHasNul (memberOf output "record") = false := by
      by_contra dirty
      refine nul ?_
      rw [Extraction.jsonHasNul]
      simp [ReportExtraction.row, eq_true_of_ne_false dirty]
    have answer : (insertExtractionSql
        (extraction.row draw.extractionId documentId draw.now output)).run draw.context d =
          .ok ((), [.insertExtraction
            (extraction.row draw.extractionId documentId draw.now output)]) :=
      if_neg fun h => nul (same.symm.trans h)
    have created := @createFieldReviews_computes draw.reviews draw.now draw.extractionId
      (memberOf output "record") (memberOf output "confidence") draw.context
      { d with extractions := d.extractions ++
        [extraction.row draw.extractionId documentId draw.now output] } legal draw.distinct
      fresh.reviews fresh.unreviewed clean
    exact Prog.computes_bind_ok
      (Prog.computes_execute sent answer (replay_row fresh.extraction missing))
      (Prog.computes_bind_ok created rfl)

theorem replayExtraction_computes (refers : Refers document documentId d.extractions)
    (legal : LegalReviews d.fieldReviews) (fresh : draw.FreshReplay d) :
    (replayExtraction world draw documentId reportDoc).Computes postgres draw.context d
      ((replayPlan world reportDoc document d.extractions).map fun replay =>
        ((), { d with
          extractions := d.extractions ++ (replay.map (·.row draw documentId)).toList
          fieldReviews := d.fieldReviews ++ replay.elim [] (·.reviews draw) })) := by
  have unchanged : { d with
      extractions := d.extractions ++ ((none : Option Replay).map (·.row draw documentId)).toList
      fieldReviews := d.fieldReviews ++ (none : Option Replay).elim [] (·.reviews draw) } = d := by
    simp
  rw [replayExtraction, replayPlan]
  cases reportDoc.extraction with
  | none => rfl
  | some extraction =>
  dsimp only
  by_cases complete : extraction.status ≠ .complete
  · rw [if_pos complete, if_pos complete, Except.map, unchanged]
    rfl
  rw [if_neg complete, if_neg complete]
  cases taken : refuse extraction.texts with
  | error e => exact computes_select_refused taken
  | ok _ =>
  refine computes_select_bind taken ?_
  rw [except_ok_then, refers.found_iff]
  cases found : d.extractions.find? (extraction.isReplayed documentId) with
  | some x =>
      rw [Option.isSome_some, if_pos rfl]
      show Prog.Computes _ _ _ _ (.ok ((), _))
      rw [unchanged]
      rfl
  | none =>
      rw [Option.isSome_none, if_neg Bool.false_ne_true]
      cases recorded : recordedOutput world extraction with
      | error e => rfl
      | ok output =>
          rw [except_ok_then]
          have inserts :=
            @inserts_computes draw d documentId extraction output legal fresh taken found
          by_cases nul : (extraction.row 0 0 0 output).jsonHasNul = true
          · rw [if_pos nul] at inserts ⊢
            exact inserts
          · rw [if_neg nul] at inserts ⊢
            exact inserts

/-- Executed alone, the transaction of an entry follows the plan. -/
theorem seedEntry_computes {entry : Entry} (legal : Legal d) (fresh : draw.Fresh d) :
    (seedEntry world draw entry.doc entry.reportDoc).Computes postgres draw.context d
      ((seedPlan world entry d).map fun plan =>
        (plan.documentId draw, plan.apply world draw entry.doc.url d)) := by
  have registers := @seedSource_computes draw entry.doc.url d fresh.source
  have ingests := @ingestSource_computes (world.env draw) draw.now
    (draw.sourceOf entry.doc.url d.sources) entry.doc.url draw.context
    { d with sources := draw.withSource entry.doc.url d.sources } legal.documents fresh.document
  have same : ingestPlan (world.env draw) entry.doc.url d.documents =
      ingestPlan world.reads entry.doc.url d.documents := rfl
  dsimp only at ingests
  rw [same] at ingests
  rw [seedEntry, seedSourceAndDocument, seedPlan]
  simp only [Prog.bind_eq]
  rw [Prog.bind_assoc]
  cases taken : refuse [entry.doc.url] with
  | error e =>
      rw [taken] at registers
      exact Prog.computes_bind_error registers
  | ok _ =>
  rw [taken] at registers
  refine Prog.computes_bind_ok registers ?_
  rw [except_ok_then]
  cases planned : ingestPlan world.reads entry.doc.url d.documents with
  | error e =>
      rw [planned] at ingests
      exact Prog.computes_bind_error ingests
  | ok ingest =>
  rw [planned] at ingests
  refine Prog.computes_bind_ok ingests ?_
  rw [except_ok_then]
  have refers : Refers (ingest.row?.map Document.id) (ingest.documentId (world.env draw))
      d.extractions := by
    cases found : ingest.row? with
    | none => exact .inr ⟨rfl, by rw [IngestPlan.documentId, found]; exact fresh.unextracted⟩
    | some row => exact .inl (by rw [IngestPlan.documentId, found]; rfl)
  have replays := @replayExtraction_computes world draw
    { d with
      sources := draw.withSource entry.doc.url d.sources
      documents := ingest.apply (world.env draw) draw.now
        (draw.sourceOf entry.doc.url d.sources) d.documents }
    entry.reportDoc _ _ refers legal.reviews
    ⟨fresh.extraction, fresh.reviews, fresh.unreviewed⟩
  cases replaying : replayPlan world entry.reportDoc (ingest.row?.map Document.id)
      d.extractions with
  | error e =>
      rw [replaying] at replays
      exact Prog.computes_bind_error replays
  | ok replay =>
      rw [replaying] at replays
      exact Prog.computes_bind_ok replays rfl

/-- What the transaction leaves behind. -/
theorem transact_seedEntry {entry : Entry} (legal : Legal d) (fresh : draw.Fresh d) :
    (seedEntry world draw entry.doc entry.reportDoc).transact postgres draw.context d =
      match seedPlan world entry d with
      | .ok plan => (.ok (plan.documentId draw), plan.apply world draw entry.doc.url d)
      | .error e => (.error e, d) := by
  rw [(seedEntry_computes legal fresh).transact]
  cases seedPlan world entry d <;> rfl

end Refinement

/-! ### What a plan keeps -/

/-- The parts of a plan. -/
theorem seedPlan_ok {world : SeedWorld} {entry : Entry} {d : Database} {plan : SeedPlan} :
    seedPlan world entry d = .ok plan ↔
      refuse [entry.doc.url] = .ok () ∧
      ingestPlan world.reads entry.doc.url d.documents = .ok plan.ingest ∧
      replayPlan world entry.reportDoc (plan.ingest.row?.map Document.id) d.extractions =
        .ok plan.replay := by
  rw [seedPlan, except_bind_ok]
  constructor
  · rintro ⟨_, taken, planned⟩
    obtain ⟨ingest, ingests, planned⟩ := except_bind_ok.mp planned
    obtain ⟨replay, replays, planned⟩ := except_bind_ok.mp planned
    cases planned
    exact ⟨taken, ingests, replays⟩
  · rintro ⟨taken, ingests, replays⟩
    refine ⟨(), taken, ?_⟩
    rw [ingests, except_ok_then, replays]
    rfl

/-- Two draws have no identifier in common. -/
structure Draw.Apart (a b : Draw) : Prop where
  source : a.sourceId ≠ b.sourceId
  document : a.documentId ≠ b.documentId
  extraction : a.extractionId ≠ b.extractionId
  reviews : ∀ n m, a.reviews n ≠ b.reviews m

section Keeps

variable {world : SeedWorld} {entry : Entry} {d : Database} {plan : SeedPlan} {draw other : Draw}

/-- The plan of the ingest, whatever the transaction is given. -/
theorem SeedPlan.plans (planned : seedPlan world entry d = .ok plan) (draw : Draw) :
    plan.ingest.For (world.env draw) entry.doc.url d.documents :=
  @ingestPlan_for (world.env draw) _ _ _ (seedPlan_ok.mp planned).2.1

theorem SeedPlan.legal (planned : seedPlan world entry d = .ok plan) (legal : Legal d)
    (fresh : draw.Fresh d) : Legal (plan.apply world draw entry.doc.url d) := by
  refine ⟨(SeedPlan.plans planned draw).table legal.documents fresh.document, ?_⟩
  show LegalReviews (d.fieldReviews ++ plan.replay.elim [] (·.reviews draw))
  cases plan.replay with
  | none =>
      rw [Option.elim_none, List.append_nil]
      exact legal.reviews
  | some replay => exact legal.reviews.create draw.distinct fresh.reviews fresh.unreviewed

theorem mem_withSource {url : String} {sources : List Source} {s : Source}
    (member : s ∈ draw.withSource url sources) : s ∈ sources ∨ s.id = draw.sourceId := by
  rw [Draw.withSource] at member
  cases found : sources.find? (·.url = url) with
  | some row =>
      rw [found] at member
      exact .inl member
  | none =>
      rw [found] at member
      obtain old | new := List.mem_append.mp member
      · exact .inl old
      · exact .inr (by rw [List.mem_singleton.mp new])

/-- An extraction that was not there before is the replayed one. -/
theorem SeedPlan.mem_extractions {x : Extraction}
    (member : x ∈ (plan.apply world draw entry.doc.url d).extractions) :
    x ∈ d.extractions ∨
      ∃ replay, plan.replay = some replay ∧ x = replay.row draw (plan.documentId draw) := by
  obtain old | new := List.mem_append.mp member
  · exact .inl old
  · obtain ⟨replay, replayed, rfl⟩ := Option.map_eq_some_iff.mp (Option.mem_toList.mp new)
    exact .inr ⟨replay, replayed, rfl⟩

theorem SeedPlan.mem_fieldReviews {r : FieldReview}
    (member : r ∈ (plan.apply world draw entry.doc.url d).fieldReviews) :
    r ∈ d.fieldReviews ∨ (∃ n, r.id = draw.reviews n) ∧ r.extractionId = draw.extractionId := by
  obtain old | new := List.mem_append.mp member
  · exact .inl old
  · cases replayed : plan.replay with
    | none => simp [replayed] at new
    | some replay =>
        rw [replayed] at new
        obtain ⟨f, _, rfl⟩ := List.mem_map.mp new
        exact .inr ⟨⟨f.2, rfl⟩, rfl⟩

/-- The document of a plan is an old one or the new one. -/
theorem SeedPlan.documentId_cases (planned : seedPlan world entry d = .ok plan) (draw : Draw) :
    (∃ o ∈ d.documents, o.id = plan.documentId draw) ∨ plan.documentId draw = draw.documentId := by
  obtain ⟨row, member, _, id, _⟩ := @IngestPlan.For.document _ 0 0 _ _ _
    (SeedPlan.plans planned draw)
  obtain old | new := @IngestPlan.For.ids _ 0 0 _ _ _ (SeedPlan.plans planned draw) _ member
  · obtain ⟨o, member, same⟩ := old
    exact .inl ⟨o, member, same.trans id⟩
  · exact .inr (id.symm.trans new)

/-- What is fresh stays fresh while others are used. -/
theorem SeedPlan.fresh (planned : seedPlan world entry d = .ok plan) (fresh : other.Fresh d)
    (apart : draw.Apart other) : other.Fresh (plan.apply world draw entry.doc.url d) := by
  constructor
  · constructor
    · intro x hx
      obtain old | ⟨_, _, rfl⟩ := SeedPlan.mem_extractions hx
      · exact fresh.extraction x old
      · exact apart.extraction
    · intro r hr n
      obtain old | ⟨⟨m, drawn⟩, _⟩ := SeedPlan.mem_fieldReviews hr
      · exact fresh.reviews r old n
      · rw [drawn]
        exact apart.reviews m n
    · intro r hr
      obtain old | ⟨_, drawn⟩ := SeedPlan.mem_fieldReviews hr
      · exact fresh.unreviewed r old
      · rw [drawn]
        exact apart.extraction
  · intro s hs
    obtain old | drawn := mem_withSource hs
    · exact fresh.source s old
    · rw [drawn]
      exact apart.source
  · intro o ho
    obtain ⟨old, member, same⟩ | drawn := (SeedPlan.plans planned draw).ids ho
    · exact same ▸ fresh.document old member
    · rw [drawn]
      exact apart.document
  · intro x hx
    obtain old | ⟨_, _, rfl⟩ := SeedPlan.mem_extractions hx
    · exact fresh.unextracted x old
    · show plan.documentId draw ≠ other.documentId
      obtain ⟨o, member, same⟩ | drawn := SeedPlan.documentId_cases planned draw
      · exact same ▸ fresh.document o member
      · rw [drawn]
        exact apart.document

end Keeps

end IncidentPipeline.SeedCorpus
