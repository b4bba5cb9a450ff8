import IncidentPipeline.Foundation.Batch
import IncidentPipeline.Review.Ranking
import IncidentPipeline.Scripts.SeedPlan

/-!
# Runs of the seed script

The entries that the report has are a batch. `seedAll_run` makes the loop of the script a run of
it, given identifiers that nothing has yet, and `main_cases` adds the files before it and the
routing pass after it.
-/

namespace IncidentPipeline.SeedCorpus

open Batches Python Tables Transactions

/-- The entries of the manifest that are not skipped. -/
def entries (report : Dict ReportDocument) (manifest : List ManifestDocument) : List Entry :=
  manifest.filterMap fun doc => (report.get? doc.id).map (Entry.mk doc)

/-- The entry is planned, and its transaction carries the plan out. -/
def Entry.Takes (world : SeedWorld) (entry : Entry) (d d' : Database) : Prop :=
  ∃ (plan : SeedPlan) (draw : Draw), seedPlan world entry d = .ok plan ∧ Legal d ∧ draw.Fresh d ∧
    d' = plan.apply world draw entry.doc.url d

def batch (world : SeedWorld) : System Entry Database where
  Step := Entry.Takes world
  Raises entry d := ∃ e, seedPlan world entry d = .error e
  exclusive := by
    rintro entry d d' ⟨e, raised⟩ ⟨plan, _, planned, _⟩
    cases raised.symm.trans planned

/-- The identifiers of a run are new, and all different. -/
structure FreshDraws (draws : Nat → Draw) (d : Database) : Prop where
  fresh : ∀ n, (draws n).Fresh d
  apart : ∀ n m, n ≠ m → (draws n).Apart (draws m)

/-- The step in the trace of the batch. -/
def Step.traced (step : Step) : Entry × Database × Database :=
  (⟨step.doc, step.reportDoc⟩, step.before, step.after)

section Loop

variable {world : SeedWorld} {report : Dict ReportDocument} {manifest : List ManifestDocument}
  {draws : Nat → Draw} {d : Database}

theorem FreshDraws.later (fresh : FreshDraws draws d) : FreshDraws (fun n => draws (n + 1)) d :=
  ⟨fun n => fresh.fresh (n + 1), fun n m other => fresh.apart _ _ fun same => other (by omega)⟩

/-- The loop of the script is a run of the batch. -/
theorem seedAll_run (legal : Legal d) (fresh : FreshDraws draws d) :
    (batch world).Run (entries report manifest) d
        ((seedAll world report manifest draws d).steps.map Step.traced)
        (seedAll world report manifest draws d).db ∧
      Legal (seedAll world report manifest draws d).db := by
  induction manifest generalizing draws d with
  | nil => exact ⟨.nil, legal⟩
  | cons doc rest ih =>
      rw [seedAll, entries]
      cases listed : report.get? doc.id with
      | none =>
          rw [List.filterMap_cons_none (by rw [listed]; rfl)]
          exact ih legal fresh.later
      | some reportDoc =>
          rw [List.filterMap_cons_some (by rw [listed]; rfl)]
          have ends := @transact_seedEntry world (draws 0) d ⟨doc, reportDoc⟩ legal (fresh.fresh 0)
          dsimp only at ends ⊢
          cases planned : seedPlan world ⟨doc, reportDoc⟩ d with
          | error e =>
              rw [planned] at ends
              rw [ends]
              exact ⟨.stop ⟨e, planned⟩, legal⟩
          | ok plan =>
              rw [planned] at ends
              rw [ends]
              have kept := SeedPlan.legal planned legal (fresh.fresh 0)
              have later : FreshDraws (fun n => draws (n + 1))
                  (plan.apply world (draws 0) doc.url d) :=
                ⟨fun n => SeedPlan.fresh planned (fresh.fresh (n + 1))
                  (fresh.apart _ _ (by omega)), fresh.later.apart⟩
              obtain ⟨run, ended⟩ := ih kept later
              exact ⟨.step ⟨plan, draws 0, planned, legal, fresh.fresh 0, rfl⟩ run, ended⟩

end Loop

/-! ### The whole script -/

/-- The review rows after the pass at the end. -/
def RoutingEnv.after (routing : RoutingEnv) (rows : List FieldReview) : List FieldReview :=
  afterPass routing.collation routing.now routing.floor (routing.budget.map Int.ofNat) rows

/-- The budget of the settings is one that the pass accepts. -/
theorem RoutingEnv.sane (routing : RoutingEnv) :
    ∀ b, routing.budget.map Int.ofNat = some b → 0 ≤ b := by
  intro b given
  obtain ⟨n, _, rfl⟩ := Option.map_eq_some_iff.mp given
  exact Int.natCast_nonneg n

theorem RoutingEnv.transact (routing : RoutingEnv) {d : Database}
    (legal : LegalReviews d.fieldReviews) :
    ∃ result, routing.program.transact postgres routing.context d =
      (.ok result, { d with fieldReviews := routing.after d.fieldReviews }) := by
  obtain ⟨result, passed, _⟩ := @routePending_serial routing.collation routing.now routing.floor
    (routing.budget.map Int.ofNat) routing.context d routing.sane legal
  refine ⟨result, ?_⟩
  rw [RoutingEnv.program, Prog.transact, passed]
  rfl

/-- The world with the files of the manifest. -/
def SeedWorld.withFiles (world : SeedWorld) (manifest : List ManifestDocument) : SeedWorld :=
  match localBodies world.readBytes manifest with
  | .error _ => world
  | .ok bodies => world.patched bodies

theorem RoutingEnv.after_legal (routing : RoutingEnv) {rows : List FieldReview}
    (legal : LegalReviews rows) : LegalReviews (routing.after rows) := by
  have kept := @ReviewCall.run_legal (.route routing.collation routing.now routing.floor
    (routing.budget.map Int.ofNat)) { Database.empty with fieldReviews := rows } routing.context
    legal
  obtain ⟨_, passed⟩ := @pass_eq routing.collation { Database.empty with fieldReviews := rows }
    routing.context routing.now routing.floor _ routing.sane legal
  rw [run_route, passed] at kept
  exact kept

section Main

variable {world : SeedWorld} {manifest : List ManifestDocument} {report : List ReportDocument}
  {draws : Nat → Draw} {routing : RoutingEnv} {d : Database}

/-- With its files, the script is its loop and the pass, unless the loop has raised. -/
theorem main_seeded (legal : Legal d) (fresh : FreshDraws draws d) {bodies : Dict (Bytes × String)}
    (read : localBodies world.readBytes manifest = .ok bodies) :
    let seeded := seedAll (world.patched bodies) (reportById report) manifest draws d
    let run := main world manifest report draws routing d
    run.steps = seeded.steps ∧
      (run.db = seeded.db ∨
        run.db = { seeded.db with fieldReviews := routing.after seeded.db.fieldReviews }) := by
  intro seeded run
  have kept : Legal seeded.db := (seedAll_run legal fresh).2
  cases ended : seeded.result with
  | error e =>
      have whole : run = ⟨seeded.steps, .error e, seeded.db⟩ := by
        show main world manifest report draws routing d = _
        rw [main, read]
        dsimp only
        rw [ended]
      rw [whole]
      exact ⟨rfl, .inl rfl⟩
  | ok _ =>
      obtain ⟨result, passed⟩ := routing.transact kept.reviews
      have whole : run = ⟨seeded.steps, .ok result,
          { seeded.db with fieldReviews := routing.after seeded.db.fieldReviews }⟩ := by
        show main world manifest report draws routing d = _
        rw [main, read]
        dsimp only
        rw [ended]
        dsimp only
        rw [passed]
      rw [whole]
      exact ⟨rfl, .inr rfl⟩

/-- A missing file stops the script before it has done anything. -/
theorem main_cases (legal : Legal d) (fresh : FreshDraws draws d) :
    (main world manifest report draws routing d).steps = [] ∧
        (main world manifest report draws routing d).db = d ∨
      ∃ seeded, Legal seeded ∧
        (batch (world.withFiles manifest)).Run (entries (reportById report) manifest) d
          ((main world manifest report draws routing d).steps.map Step.traced) seeded ∧
        ((main world manifest report draws routing d).db = seeded ∨
          (main world manifest report draws routing d).db =
            { seeded with fieldReviews := routing.after seeded.fieldReviews }) := by
  rw [SeedWorld.withFiles]
  cases read : localBodies world.readBytes manifest with
  | error e =>
      refine .inl ?_
      rw [main, read]
      exact ⟨rfl, rfl⟩
  | ok bodies =>
      obtain ⟨run, kept⟩ := @seedAll_run (world.patched bodies) (reportById report) manifest draws d
        legal fresh
      obtain ⟨steps, db⟩ := @main_seeded world manifest report draws routing d legal fresh _ read
      exact .inr ⟨_, kept, steps ▸ run, db⟩

end Main

/-! ### The document of a replayed extraction -/

/-- The extraction of the report is complete, and the document has none like it yet. -/
def Entry.Due (world : SeedWorld) (entry : Entry) (d : Database) : Prop :=
  ∃ extraction, entry.reportDoc.extraction = some extraction ∧ extraction.status = .complete ∧
    ∀ row, storedDocument? world.reads entry.doc.url d.documents = some row →
      ∀ x ∈ d.extractions, extraction.isReplayed row.id x = false

/-- What a replay that goes well comes to: there is nothing to replay, it is there, or it is
written. -/
theorem replayPlan_ok {world : SeedWorld} {reportDoc : ReportDocument} {document : Option Uuid}
    {extractions : List Extraction} {replay : Option Replay}
    (planned : replayPlan world reportDoc document extractions = .ok replay) :
    ∃ extraction, reportDoc.extraction = some extraction ∧
      (extraction.status ≠ .complete ∧ replay = none ∨
        extraction.status = .complete ∧ refuse extraction.texts = .ok () ∧
          (document.any (fun id => extractions.any (extraction.isReplayed id)) ∧ replay = none ∨
            ¬ document.any (fun id => extractions.any (extraction.isReplayed id)) ∧
              ∃ output, replay = some ⟨extraction, output⟩)) := by
  rw [replayPlan] at planned
  split at planned
  · cases planned
  · next extraction recorded =>
      refine ⟨extraction, recorded, ?_⟩
      split at planned
      · next failed =>
          cases planned
          exact .inl ⟨failed, rfl⟩
      · next complete =>
          obtain ⟨_, taken, planned⟩ := except_bind_ok.mp planned
          refine .inr ⟨not_not.mp complete, taken, ?_⟩
          split at planned
          · next known =>
              cases planned
              exact .inl ⟨known, rfl⟩
          · next new =>
              obtain ⟨output, _, planned⟩ := except_bind_ok.mp planned
              split at planned
              · cases planned
              · cases planned
                exact .inr ⟨new, output, rfl⟩

section Attached

variable {world : SeedWorld} {entry : Entry} {d : Database} {plan : SeedPlan}

theorem SeedPlan.due_iff (planned : seedPlan world entry d = .ok plan) (legal : Legal d) :
    entry.Due world d ↔ ∃ replay, plan.replay = some replay := by
  obtain ⟨_, ingests, replays⟩ := seedPlan_ok.mp planned
  obtain ⟨extraction, recorded, ends⟩ := replayPlan_ok replays
  rw [(ingestPlan_for ingests).row?_eq legal.documents] at ends
  have known_iff : ((storedDocument? world.reads entry.doc.url d.documents).map Document.id).any
        (fun id => d.extractions.any (extraction.isReplayed id)) = true ↔
      ∃ row, storedDocument? world.reads entry.doc.url d.documents = some row ∧
        ∃ x ∈ d.extractions, extraction.isReplayed row.id x = true := by
    cases storedDocument? world.reads entry.doc.url d.documents <;> simp
  rw [known_iff] at ends
  constructor
  · rintro ⟨extraction', recorded', complete, new⟩
    obtain rfl := Option.some.inj (recorded.symm.trans recorded')
    obtain ⟨failed, _⟩ | ⟨_, _, ⟨⟨row, stored, x, hx, replayed⟩, _⟩ | ⟨_, output, replay⟩⟩ := ends
    · exact absurd complete failed
    · exact absurd replayed (Bool.eq_false_iff.mp (new row stored x hx))
    · exact ⟨_, replay⟩
  · rintro ⟨replay, given⟩
    obtain ⟨_, missing⟩ | ⟨complete, _, ⟨_, missing⟩ | ⟨new, _⟩⟩ := ends
    · cases given.symm.trans missing
    · cases given.symm.trans missing
    · refine ⟨extraction, recorded, complete, fun row stored x hx => ?_⟩
      refine Bool.eq_false_iff.mpr fun same => ?_
      exact new ⟨row, stored, x, hx, same⟩

/-- Documents stay under their identifiers, with their texts. -/
theorem Entry.Takes.keeps_text {d' : Database} (takes : entry.Takes world d d') {id : Uuid}
    {hash : String} (there : ∃ o ∈ d.documents, o.id = id ∧ o.textHash = hash) :
    ∃ o ∈ d'.documents, o.id = id ∧ o.textHash = hash := by
  obtain ⟨plan, draw, planned, legal, _, rfl⟩ := takes
  obtain ⟨o, member, rfl, rfl⟩ := there
  exact (SeedPlan.plans planned draw).keeps_text legal.documents member

/-- The rows that a step writes belong to a document whose text the entry has been seen with. -/
theorem Entry.Takes.writes {d' : Database} (takes : entry.Takes world d d') :
    ∃ id hash, (∃ o ∈ d'.documents, o.id = id ∧ o.textHash = hash) ∧
      storedTextHash? world.reads entry.doc.url d.documents = some hash ∧
      (∀ x ∈ d'.extractions, x ∉ d.extractions → x.documentId = id) ∧
      (entry.Due world d ↔ ∃ x ∈ d'.extractions, x ∉ d.extractions) := by
  obtain ⟨plan, draw, planned, legal, fresh, rfl⟩ := takes
  have plans := SeedPlan.plans planned draw
  obtain ⟨row, member, _, id, text⟩ := @IngestPlan.For.document _ draw.now
    (draw.sourceOf entry.doc.url d.sources) _ _ _ plans
  refine ⟨plan.documentId draw, _, ⟨row, member, id, text⟩,
    plans.textHash_eq legal.documents, fun x hx new => ?_, ?_⟩
  · obtain old | ⟨_, _, rfl⟩ := SeedPlan.mem_extractions hx
    · exact absurd old new
    · rfl
  · rw [SeedPlan.due_iff planned legal]
    constructor
    · rintro ⟨replay, given⟩
      refine ⟨replay.row draw (plan.documentId draw), List.mem_append_right _ ?_, fun old =>
        fresh.extraction _ old rfl⟩
      rw [given]
      exact List.mem_singleton_self _
    · rintro ⟨x, hx, new⟩
      obtain old | ⟨replay, given, _⟩ := SeedPlan.mem_extractions hx
      · exact absurd old new
      · exact ⟨replay, given⟩

end Attached

def Step.Wrote (step : Step) (x : Extraction) : Prop :=
  x ∈ step.after.extractions ∧ x ∉ step.before.extractions

/-- What the step has written is attached to a document with the recorded text. -/
def Step.Attached (step : Step) (documents : List Document) : Prop :=
  ∀ x, step.Wrote x →
    ∃ doc ∈ documents, doc.id = x.documentId ∧ some doc.textHash = step.reportDoc.textHash

/-- An extraction is only due where the document has the recorded text. -/
def Step.SameText (step : Step) (world : SeedWorld) : Prop :=
  Entry.Due world ⟨step.doc, step.reportDoc⟩ step.before →
    storedTextHash? world.reads step.doc.url step.before.documents = step.reportDoc.textHash

section Script

variable {world : SeedWorld} {manifest : List ManifestDocument} {report : List ReportDocument}
  {draws : Nat → Draw} {routing : RoutingEnv} {d : Database}

theorem attached_iff {step : Step} {seeded : Database} {trace : List (Entry × Database × Database)}
    {entries : List Entry} (run : (batch world).Run entries d trace seeded)
    (legal : Legal seeded) (member : step.traced ∈ trace) :
    step.Attached seeded.documents ↔ step.SameText world := by
  obtain ⟨takes, rest, later, _, goes⟩ := run.of_mem_trace member
  obtain ⟨id, hash, there, seen, belongs, due⟩ := takes.writes
  obtain ⟨o, member, rfl, rfl⟩ :=
    goes.keeps (P := fun d => ∃ o ∈ d.documents, o.id = id ∧ o.textHash = hash)
      (fun e _ _ _ moves => Entry.Takes.keeps_text moves) there
  constructor
  · intro attached isDue
    obtain ⟨x, hx, new⟩ := due.mp isDue
    obtain ⟨doc, hdoc, same, recorded⟩ := attached x ⟨hx, new⟩
    have equal : doc = o :=
      legal.documents.ids.eq_of_key hdoc member (same.trans (belongs x hx new))
    exact seen.trans (equal ▸ recorded)
  · rintro same x ⟨hx, new⟩
    exact ⟨o, member, (belongs x hx new).symm, seen.symm.trans (same (due.mpr ⟨x, hx, new⟩))⟩

/-- Every extraction that the script writes comes from a step. All of them are attached to a
document with the text that the report has recorded for the entry exactly if this is, at every
step with an extraction that is due, the text of the stored document or of the page. -/
theorem main_attaches_iff (legal : Legal d) (fresh : FreshDraws draws d) :
    let run := main world manifest report draws routing d
    (∀ x ∈ run.db.extractions, x ∉ d.extractions → ∃ step ∈ run.steps, step.Wrote x) ∧
      ((∀ step ∈ run.steps, step.Attached run.db.documents) ↔
        ∀ step ∈ run.steps, step.SameText (world.withFiles manifest)) := by
  intro run
  obtain ⟨none_taken, same⟩ | ⟨seeded, kept, ran, ends⟩ :=
    @main_cases world manifest report draws routing d legal fresh
  · have steps : run.steps = [] := none_taken
    have db : run.db = d := same
    rw [steps, db]
    exact ⟨fun x hx new => absurd hx new, by simp⟩
  · have tables : run.db.extractions = seeded.extractions ∧
        run.db.documents = seeded.documents := by
      obtain same | routed := ends
      · exact same ▸ ⟨rfl, rfl⟩
      · exact routed ▸ ⟨rfl, rfl⟩
    rw [tables.1, tables.2]
    constructor
    · intro x hx new
      obtain ⟨e, b, a, member, before, after⟩ :=
        ran.crosses (P := fun d => x ∈ d.extractions) hx new
      obtain ⟨step, hstep, traced⟩ := List.mem_map.mp member
      cases traced
      exact ⟨step, hstep, after, before⟩
    · have each : ∀ step ∈ run.steps,
          (step.Attached seeded.documents ↔ step.SameText (world.withFiles manifest)) :=
        fun step hstep => attached_iff ran kept (List.mem_map_of_mem hstep)
      exact ⟨fun h step hs => (each step hs).mp (h step hs),
        fun h step hs => (each step hs).mpr (h step hs)⟩

end Script

/-! One page that is not saved locally, on an empty database. -/

/-- Every page is the same PDF, and reads "as it is". -/
def pdfWorld : SeedWorld where
  readBytes _ := .error (foreign "FileNotFoundError" "")
  http url := .response 200 url none (ascii "%PDF-1")
  parsers _ _ := .ok ⟨none, "as it is"⟩
  sha256 bytes := String.ofList (bytes.map fun b => Char.ofNat b.toNat)
  rt := .ascii
  validationText _ := ""

def page : ManifestDocument := ⟨"K", "https://example.com/pm.pdf", "pdf", none⟩

def pageExtraction : ReportExtraction where
  status := .complete
  schemaVersion := schemaVersion
  provider := "anthropic"
  model := "m"
  thinking := "default"
  runId := "run 12"
  record := .obj (sparseRecord "Org")
  perFieldConfidence := .obj (recordFields.map fun field => (field, .num 1))
  validationAttempts := 1
  attemptLog := []
  usage := []
  noOutput := by simp

def pageReport (textHash : String) : ReportDocument := ⟨"K", some textHash, some pageExtraction⟩

/-- No two positions share an identifier. -/
def spreadDraw (base n : Nat) : Draw where
  sourceId := base + n
  documentId := base + n
  extractionId := base + n
  reviews k := Nat.pair (base + n) k
  now := 0
  fetchedAt := 0
  context := ⟨.empty, []⟩
  distinct _ _ same := (Nat.pair_eq_pair.mp same).2

def uncapped : RoutingEnv := ⟨byCodePoint, 7/10, none, 0, ⟨.empty, []⟩⟩

theorem spreadDraw_apart (base : Nat) {n m : Nat} (other : n ≠ m) :
    (spreadDraw base n).Apart (spreadDraw base m) := by
  have apart : base + n ≠ base + m := fun same => other (Nat.add_left_cancel same)
  exact ⟨apart, apart, apart, fun k l same => apart (Nat.pair_eq_pair.mp same).1⟩

theorem spreadDraw_fresh {base : Nat} {d : Database} (sources : ∀ s ∈ d.sources, s.id < base)
    (documents : ∀ o ∈ d.documents, o.id < base) (extractions : d.extractions = [])
    (fieldReviews : d.fieldReviews = []) : FreshDraws (spreadDraw base) d := by
  refine ⟨fun n => ⟨⟨?_, ?_, ?_⟩, fun s hs => ?_, fun o ho => ?_, ?_⟩,
    fun _ _ other => spreadDraw_apart base other⟩
  · simp [extractions]
  · simp [fieldReviews]
  · simp [fieldReviews]
  · exact ((sources s hs).trans_le (Nat.le_add_right base n)).ne
  · exact ((documents o ho).trans_le (Nat.le_add_right base n)).ne
  · simp [extractions]

theorem spreadDraw_empty (base : Nat) : FreshDraws (spreadDraw base) .empty :=
  spreadDraw_fresh (by simp [Database.empty]) (by simp [Database.empty]) rfl rfl

theorem empty_legal : Legal .empty :=
  ⟨documentTable_nil, reviewTable_nil, by simp [Database.empty]⟩

def pagePlan : SeedPlan where
  ingest := .inserted ⟨page.url, none, ascii "%PDF-1"⟩ .pdf ⟨none, "as it is"⟩
  replay := some ⟨pageExtraction, .obj [("record", pageExtraction.record),
    ("confidence", pageExtraction.perFieldConfidence)]⟩

def pageAfter : Database := pagePlan.apply pdfWorld (spreadDraw 1 0) page.url .empty

theorem main_page (textHash : String) :
    let run := main pdfWorld [page] [pageReport textHash] (spreadDraw 1) uncapped .empty
    run.steps = [⟨page, pageReport textHash, spreadDraw 1 0, .empty, 1, pageAfter⟩] ∧
      run.db.documents = pageAfter.documents := by
  have taken : refuse [page.url] = .ok () := by rfl
  have ingested : ingestPlan pdfWorld.reads page.url [] = .ok pagePlan.ingest := by rfl
  have planned : seedPlan pdfWorld ⟨page, pageReport textHash⟩ .empty = .ok pagePlan :=
    seedPlan_ok.mpr ⟨taken, ingested, by rfl⟩
  have ends := @transact_seedEntry pdfWorld (spreadDraw 1 0) .empty ⟨page, pageReport textHash⟩
    empty_legal ((spreadDraw_empty 1).fresh 0)
  rw [planned] at ends
  have listed : (reportById [pageReport textHash]).get? page.id = some (pageReport textHash) := rfl
  have seeded : seedAll pdfWorld (reportById [pageReport textHash]) [page] (spreadDraw 1) .empty =
      ⟨[⟨page, pageReport textHash, spreadDraw 1 0, .empty, 1, pageAfter⟩], .ok (), pageAfter⟩ := by
    rw [seedAll, listed]
    dsimp only at ends ⊢
    rw [ends]
    rfl
  obtain ⟨steps, db⟩ := @main_seeded pdfWorld [page] [pageReport textHash] (spreadDraw 1) uncapped
    .empty empty_legal (spreadDraw_empty 1) [] rfl
  have patched : pdfWorld.patched [] = pdfWorld := rfl
  rw [patched, seeded] at steps db
  refine ⟨steps, ?_⟩
  obtain same | routed := db
  · rw [same]
  · rw [routed]

/-- The page still has the text of the report. -/
theorem main_attaches_iff_unchanged :
    let run := main pdfWorld [page] [pageReport "as it is"] (spreadDraw 1) uncapped .empty
    ∀ step ∈ run.steps, step.Attached run.db.documents := by
  refine (main_attaches_iff empty_legal (spreadDraw_empty 1)).2.mpr ?_
  rw [(main_page "as it is").1]
  intro step member due
  rw [List.mem_singleton.mp member]
  rfl

/-- The page has changed since the report. -/
theorem main_attaches_changed :
    let run := main pdfWorld [page] [pageReport "as it was"] (spreadDraw 1) uncapped .empty
    Legal .empty ∧ FreshDraws (spreadDraw 1) .empty ∧
      ¬ ∀ step ∈ run.steps, step.Attached run.db.documents := by
  have other : ∀ run : Run RoutingResult,
      run.steps = [⟨page, pageReport "as it was", spreadDraw 1 0, .empty, 1, pageAfter⟩] →
        run.db.documents = pageAfter.documents →
          ¬ ∀ step ∈ run.steps, step.Attached run.db.documents := by
    intro run steps documents attached
    rw [steps, documents] at attached
    obtain ⟨doc, member, _, same⟩ := attached _ (List.mem_singleton_self _) _
      ⟨List.mem_singleton_self _, List.not_mem_nil⟩
    rw [List.mem_singleton.mp member] at same
    revert same
    decide
  have seeded := main_page "as it was"
  exact ⟨empty_legal, spreadDraw_empty 1, other _ seeded.1 seeded.2⟩

end IncidentPipeline.SeedCorpus
