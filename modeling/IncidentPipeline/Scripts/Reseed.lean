import IncidentPipeline.Ingest.Readings
import IncidentPipeline.Scripts.SeedRun

/-!
# Seeding again

Three lookups keep a second run of the seed script from inserting anything: the source by URL,
the document by the hash of its bytes or of its text, the extraction by six columns. An entry is
`Done` once the first and the last have something to find; a run leaves all its entries done.
What the script does not keep is the lookup of the bytes, since a document moves to other bytes
with every entry that has its text.
-/

namespace IncidentPipeline.SeedCorpus

open Batches Python Tables Transactions

/-! ### Replays that have nothing to write -/

theorem replayPlan_known {world : SeedWorld} {reportDoc : ReportDocument}
    {extraction : ReportExtraction} {id : Uuid} {extractions : List Extraction}
    (recorded : reportDoc.extraction = some extraction)
    (known : extraction.status ≠ .complete ∨
      refuse extraction.texts = .ok () ∧ ∃ x ∈ extractions, extraction.isReplayed id x = true) :
    replayPlan world reportDoc (some id) extractions = .ok none := by
  rw [replayPlan, recorded]
  dsimp only
  obtain failed | ⟨taken, there⟩ := known
  · rw [if_pos failed]
  · by_cases failed : extraction.status ≠ .complete
    · rw [if_pos failed]
    · rw [if_neg failed, taken, except_ok_then, Option.any_some,
        if_pos (List.any_eq_true.mpr there)]
      rfl

/-- What is not written again is not written again with more rows. -/
theorem replayPlan_none_mono {world : SeedWorld} {reportDoc : ReportDocument} {id : Uuid}
    {extractions more : List Extraction} (sub : extractions ⊆ more)
    (nothing : replayPlan world reportDoc (some id) extractions = .ok none) :
    replayPlan world reportDoc (some id) more = .ok none := by
  obtain ⟨extraction, recorded, ⟨failed, _⟩ | ⟨_, taken, ⟨known, _⟩ | ⟨_, _, written⟩⟩⟩ :=
    replayPlan_ok nothing
  · exact replayPlan_known recorded (.inl failed)
  · rw [Option.any_some] at known
    obtain ⟨x, hx, replayed⟩ := List.any_eq_true.mp known
    exact replayPlan_known recorded (.inr ⟨taken, x, sub hx, replayed⟩)
  · cases written

/-! ### Sources -/

section Sources

variable {draw : Draw} {url : String} {sources : List Source}

theorem withSource_of_mem (there : ∃ s ∈ sources, s.url = url) :
    draw.withSource url sources = sources := by
  obtain ⟨s, hs, rfl⟩ := there
  rw [Draw.withSource]
  cases found : sources.find? (·.url = s.url) with
  | some row => rfl
  | none => exact absurd (List.find?_eq_none.mp found s hs) (by simp)

theorem mem_withSource_url : ∃ s ∈ draw.withSource url sources, s.url = url := by
  rw [Draw.withSource]
  cases found : sources.find? (·.url = url) with
  | some row => exact ⟨row, List.mem_of_find?_eq_some found, by simpa using List.find?_some found⟩
  | none => exact ⟨_, List.mem_append_right _ (List.mem_singleton_self _), rfl⟩

theorem subset_withSource : sources ⊆ draw.withSource url sources := by
  rw [Draw.withSource]
  cases sources.find? (·.url = url) with
  | some row => exact List.Subset.refl _
  | none => exact List.subset_append_left _ _

end Sources

/-! ### Entries -/

section Entries

variable {world : SeedWorld} {e f : Entry} {d d' : Database}

/-- Nothing of the entry would be written for a document with its bytes. -/
structure Entry.Done (world : SeedWorld) (e : Entry) (d : Database) : Prop where
  source : ∃ s ∈ d.sources, s.url = e.doc.url
  replayed : ∀ row ∈ d.documents, bytesHash? world.reads e.doc.url = some row.contentHash →
    replayPlan world e.reportDoc (some row.id) d.extractions = .ok none

/-- A document has the bytes of the entry. -/
def Entry.Stored (world : SeedWorld) (e : Entry) (d : Database) : Prop :=
  ∃ row ∈ d.documents, bytesHash? world.reads e.doc.url = some row.contentHash

/-- A document has the bytes and the text of the entry. -/
def Entry.StoredWhole (world : SeedWorld) (e : Entry) (d : Database) : Prop :=
  ∃ row ∈ d.documents, bytesHash? world.reads e.doc.url = some row.contentHash ∧
    textHash? world.reads e.doc.url = some row.textHash

/-- Neither the bytes nor the texts of the two entries have a hash in common. -/
structure Entry.Apart (world : SeedWorld) (e f : Entry) : Prop where
  bytes : ∀ hash, bytesHash? world.reads e.doc.url = some hash →
    bytesHash? world.reads f.doc.url ≠ some hash
  texts : ∀ hash, textHash? world.reads e.doc.url = some hash →
    textHash? world.reads f.doc.url ≠ some hash

theorem Entry.Takes.done (takes : e.Takes world d d') : e.Done world d' := by
  obtain ⟨plan, draw, planned, legal, fresh, rfl⟩ := takes
  refine ⟨mem_withSource_url, fun row member bytes => ?_⟩
  obtain ⟨own, ownMember, ownBytes, id, _⟩ := @IngestPlan.For.document _ draw.now
    (draw.sourceOf e.doc.url d.sources) _ _ _ (SeedPlan.plans planned draw)
  have same : row = own := (SeedPlan.legal planned legal fresh).documents.contents.eq_of_key member
    ownMember (Option.some.inj (bytes.symm.trans ownBytes))
  rw [same, id]
  obtain ⟨_, _, replays⟩ := seedPlan_ok.mp planned
  obtain ⟨extraction, recorded,
      ⟨failed, _⟩ | ⟨complete, taken, ⟨known, _⟩ | ⟨_, output, written⟩⟩⟩ := replayPlan_ok replays
  · exact replayPlan_known recorded (.inl failed)
  · -- the extraction was there for a document that was there
    cases found : plan.ingest.row? with
    | none =>
        rw [found] at known
        cases known
    | some row =>
        rw [found, Option.map_some, Option.any_some] at known
        obtain ⟨x, hx, replayed⟩ := List.any_eq_true.mp known
        refine replayPlan_known recorded (.inr ⟨taken, x, List.mem_append_left _ hx, ?_⟩)
        rw [IngestPlan.documentId, found]
        exact replayed
  · refine replayPlan_known recorded (.inr ⟨taken,
      (Replay.mk extraction output).row draw (plan.documentId draw),
      List.mem_append_right _ ?_, ?_⟩)
    · rw [written]
      exact List.mem_singleton_self _
    · simp [ReportExtraction.isReplayed, Replay.row, ReportExtraction.row, Extraction.identity,
        SeedPlan.documentId, IngestPlan.documentId, SeedWorld.env]

/-- Another entry undoes nothing: a document with the bytes was there before. -/
theorem Entry.Takes.keeps_done (apart : e.Apart world f) (takes : f.Takes world d d')
    (done : e.Done world d) : e.Done world d' := by
  obtain ⟨plan, draw, planned, legal, fresh, rfl⟩ := takes
  obtain ⟨s, hs, url⟩ := done.source
  refine ⟨⟨s, subset_withSource hs, url⟩, fun row member bytes => ?_⟩
  have old := ((SeedPlan.plans planned draw).mem_apply member).resolve_right fun own =>
    apart.bytes _ bytes own.1
  exact replayPlan_none_mono (List.subset_append_left _ _) (done.replayed row old bytes)

/-- With its bytes stored, an entry that is done changes nothing. -/
theorem Entry.Takes.still (done : e.Done world d) (stored : e.Stored world d)
    (takes : e.Takes world d d') : d' = d := by
  obtain ⟨plan, draw, planned, legal, fresh, rfl⟩ := takes
  obtain ⟨_, ingests, replays⟩ := seedPlan_ok.mp planned
  have plans := ingestPlan_for ingests
  obtain ⟨o, ho, bytes⟩ := stored
  obtain ⟨row, found⟩ := (plans.stored_iff bytes).mp ⟨o, ho, rfl⟩
  rw [found] at plans replays
  have nothing : plan.replay = none := by
    cases plans with
    | found same member =>
        exact (Except.ok.inj ((done.replayed row member same).symm.trans replays)).symm
  rw [SeedPlan.apply, withSource_of_mem done.source, found, nothing]
  simp [IngestPlan.apply]

/-- Without them, a document gets the bytes and the text of the entry. -/
theorem Entry.Takes.marks (missing : ¬ e.Stored world d) (takes : e.Takes world d d') :
    e.StoredWhole world d' := by
  obtain ⟨plan, draw, planned, _, _, rfl⟩ := takes
  exact (SeedPlan.plans planned draw).stored_or_whole.resolve_left missing

theorem Entry.Takes.keeps_whole (apart : e.Apart world f) (takes : f.Takes world d d')
    (whole : e.StoredWhole world d) : e.StoredWhole world d' := by
  obtain ⟨plan, draw, planned, legal, _, rfl⟩ := takes
  obtain ⟨row, member, bytes, text⟩ := whole
  exact ⟨row, (SeedPlan.plans planned draw).keeps legal.documents member (apart.texts _ text),
    bytes, text⟩

end Entries

/-! ### A second run -/

/-- No row is inserted, and only rows below the floor are moved to the queue, within the budget. -/
structure RoutedOnly (routing : RoutingEnv) (before after : Database) : Prop where
  sources : after.sources = before.sources
  documents : after.documents = before.documents
  jobs : after.jobs = before.jobs
  extractions : after.extractions = before.extractions
  reviews : List.Forall₂ (fun r s : FieldReview =>
    s = r ∨ r.reviewState = .unreviewed ∧ r.confidence < routing.floor ∧ s = r.route routing.now)
    before.fieldReviews after.fieldReviews
  budget : ∀ b, routing.budget = some b →
    outstandingRows after.fieldReviews ≤ max b (outstandingRows before.fieldReviews)

theorem RoutedOnly.refl (routing : RoutingEnv) (d : Database) : RoutedOnly routing d d :=
  ⟨rfl, rfl, rfl, rfl, List.forall₂_same.mpr fun _ _ => .inl rfl, fun _ _ => le_max_right _ _⟩

/-- The pass at the end does no more. -/
theorem RoutedOnly.pass (routing : RoutingEnv) {d : Database}
    (legal : LegalReviews d.fieldReviews) :
    RoutedOnly routing d { d with fieldReviews := routing.after d.fieldReviews } := by
  refine ⟨rfl, rfl, rfl, rfl, ?_, fun b given => ?_⟩
  · refine List.forall₂_map_right_iff.mpr (List.forall₂_same.mpr fun r hr => ?_)
    rw [routeRow]
    split
    · next chosen =>
        have admitted := mem_admitted_of_id legal.table.ids hr chosen
        obtain ⟨state, below⟩ := FieldReview.eligible_iff.mp (mem_of_mem_admitted admitted).2
        exact .inr ⟨state, below, rfl⟩
    · exact .inl rfl
  · have bound := @afterPass_le_budget routing.collation d.fieldReviews legal.table.ids routing.now
      routing.floor (Int.ofNat b)
    show outstandingRows (routing.after d.fieldReviews) ≤ _
    rw [RoutingEnv.after, given, Option.map_some]
    rw [Int.ofNat_eq_natCast] at bound ⊢
    omega

theorem forall₂_left {α β : Type} {R : α → β → Prop} {xs : List α} {ys : List β}
    (related : List.Forall₂ R xs ys) : ∀ x ∈ xs, ∃ y ∈ ys, R x y := by
  induction related with
  | nil => simp
  | cons first rest ih =>
      intro x hx
      obtain rfl | later := List.mem_cons.mp hx
      · exact ⟨_, List.mem_cons_self, first⟩
      · obtain ⟨y, hy, r⟩ := ih x later
        exact ⟨y, List.mem_cons_of_mem _ hy, r⟩

/-- No reviewed row is altered. -/
theorem RoutedOnly.reviewed {routing : RoutingEnv} {before after : Database}
    (routed : RoutedOnly routing before after) {r : FieldReview} (member : r ∈ before.fieldReviews)
    (reviewed : r.reviewState = .reviewed) : r ∈ after.fieldReviews := by
  obtain ⟨s, hs, same | ⟨open_, _⟩⟩ := forall₂_left routed.reviews r member
  · exact same ▸ hs
  · rw [reviewed] at open_
    cases open_

/-- The bytes of every entry are those of a document, up to an entry that raises. -/
def AllStored (world : SeedWorld) (manifest : List ManifestDocument) (report : List ReportDocument)
    (d : Database) : Prop :=
  ∀ bodies, localBodies world.readBytes manifest = .ok bodies →
    (batch (world.patched bodies)).UpTo (Entry.Stored (world.patched bodies)) d
      (entries (reportById report) manifest)

/-- No two entries have the hash of their bytes or of their text in common. -/
def AllApart (world : SeedWorld) (manifest : List ManifestDocument) (report : List ReportDocument) :
    Prop :=
  ∀ bodies, localBodies world.readBytes manifest = .ok bodies →
    (entries (reportById report) manifest).Pairwise (Entry.Apart (world.patched bodies))

/-- Calls on the review rows leave the other tables alone. -/
theorem reviewHistory_frame {history : List (Context × ReviewCall)} {d : Database}
    (legal : LegalReviews d.fieldReviews) :
    LegalReviews (reviewHistory history d).fieldReviews ∧
      (reviewHistory history d).sources = d.sources ∧
      (reviewHistory history d).documents = d.documents ∧
      (reviewHistory history d).extractions = d.extractions := by
  induction history generalizing d with
  | nil => exact ⟨legal, rfl, rfl, rfl⟩
  | cons entry rest ih =>
      obtain ⟨kept, sources, documents, extractions⟩ :=
        @ih (entry.2.run entry.1 d).2 (entry.2.run_legal entry.1 legal)
      have tables : (entry.2.run entry.1 d).2 =
          { d with fieldReviews := (entry.2.run entry.1 d).2.fieldReviews } := by
        obtain ⟨e, raised⟩ | ⟨own, _, effect⟩ := entry.2.run_cases entry.1 legal
        · rw [raised]
        · exact effect.tables
      refine ⟨kept, sources.trans ?_, documents.trans ?_, extractions.trans ?_⟩ <;> rw [tables]

/-- What an entry reads of the tables. -/
structure SameLookups (d d' : Database) : Prop where
  sources : d'.sources = d.sources
  documents : d'.documents = d.documents
  extractions : d'.extractions = d.extractions

theorem SameLookups.seedPlan {world : SeedWorld} {e : Entry} {d d' : Database}
    (same : SameLookups d d') : seedPlan world e d' = SeedCorpus.seedPlan world e d := by
  rw [SeedCorpus.seedPlan, SeedCorpus.seedPlan, same.documents, same.extractions]

theorem SameLookups.done {world : SeedWorld} {e : Entry} {d d' : Database}
    (same : SameLookups d d') (done : e.Done world d) : e.Done world d' := by
  obtain ⟨source, replayed⟩ := done
  rw [← same.sources] at source
  rw [← same.documents, ← same.extractions] at replayed
  exact ⟨source, replayed⟩

theorem SameLookups.trans {a b c : Database} (first : SameLookups a b) (second : SameLookups b c) :
    SameLookups a c :=
  ⟨second.sources.trans first.sources, second.documents.trans first.documents,
    second.extractions.trans first.extractions⟩

/-- The pass at the end touches none of the lookups. -/
theorem main_lookups {routing : RoutingEnv} {seeded d : Database} (kept : Legal seeded)
    (ends : d = seeded ∨ d = { seeded with fieldReviews := routing.after seeded.fieldReviews }) :
    Legal d ∧ SameLookups seeded d := by
  obtain rfl | rfl := ends
  · exact ⟨kept, rfl, rfl, rfl⟩
  · exact ⟨⟨kept.documents, routing.after_legal kept.reviews⟩, rfl, rfl, rfl⟩

section Reseed

variable {world : SeedWorld} {manifest : List ManifestDocument} {report : List ReportDocument}
  {draws again : Nat → Draw} {routing later : RoutingEnv} {start before : Database}

/-- A run of the batch leaves the entries done, and they stay so while their tables do. -/
theorem batch_done {entries : List Entry} {trace : List (Entry × Database × Database)}
    {first : Database} (run : (batch world).Run entries start trace first)
    (apart : entries.Pairwise (Entry.Apart world)) (same : SameLookups first before) :
    (batch world).UpTo (Entry.Done world) before entries := by
  have done : (batch world).UpTo (Entry.Done world) first entries :=
    run.upTo (I := fun _ => True) (fun _ _ _ _ _ holds => holds)
      (fun _ _ _ _ takes _ => Entry.Takes.done takes)
      (fun apart takes done => Entry.Takes.keeps_done apart takes done) apart trivial
  refine done.imp (fun e raises => ?_) fun e done => same.done done
  obtain ⟨exc, raised⟩ := raises
  exact ⟨exc, same.seedPlan.trans raised⟩

/-- On entries that are done, the batch leaves the documents as they are exactly if the bytes are
stored. -/
theorem batch_still_iff {entries : List Entry} {trace : List (Entry × Database × Database)}
    {finish : Database} (run : (batch world).Run entries before trace finish)
    (apart : entries.Pairwise (Entry.Apart world))
    (done : (batch world).UpTo (Entry.Done world) before entries) :
    ((batch world).UpTo (Entry.Stored world) before entries → finish = before) ∧
      (finish.documents = before.documents →
        (batch world).UpTo (Entry.Stored world) before entries) := by
  have still : ∀ {e d d'}, Entry.Done world e d → Entry.Stored world e d →
      (batch world).Step e d d' → d' = d := fun done stored takes =>
    Entry.Takes.still done stored takes
  refine ⟨fun stored => done.still stored still run, fun same => ?_⟩
  obtain stored | ⟨e, _, missing, row, member, bytes, _⟩ :=
    done.settled_or apart still (fun missing takes => Entry.Takes.marks missing takes)
      (fun apart takes whole => Entry.Takes.keeps_whole apart takes whole) run
  · exact stored
  · exact absurd ⟨row, same ▸ member, bytes⟩ missing

/-- The tables before the second run: the first has left its lookups and done its entries. -/
theorem first_run {bodies : Dict (Bytes × String)}
    (read : localBodies world.readBytes manifest = .ok bodies)
    (apart : AllApart world manifest report) (legal : Legal start)
    (fresh : FreshDraws draws start) (history : List (Context × ReviewCall)) :
    let before := reviewHistory history (main world manifest report draws routing start).db
    Legal before ∧
      (batch (world.patched bodies)).UpTo (Entry.Done (world.patched bodies)) before
        (entries (reportById report) manifest) ∧
      ∃ trace seeded, SameLookups seeded before ∧
        (batch (world.patched bodies)).Run (entries (reportById report) manifest) start trace
          seeded := by
  intro before
  obtain ⟨ran, kept⟩ := @seedAll_run (world.patched bodies) (reportById report) manifest draws
    start legal fresh
  obtain ⟨_, ends⟩ := @main_seeded world manifest report draws routing start legal fresh bodies read
  obtain ⟨legalFirst, lookups⟩ := main_lookups kept ends
  obtain ⟨reviews, sources, documents, extractions⟩ :=
    @reviewHistory_frame history _ legalFirst.reviews
  have same := lookups.trans ⟨sources, documents, extractions⟩
  have done := batch_done ran (apart bodies read) same
  exact ⟨⟨documents ▸ legalFirst.documents, reviews⟩, done, _, _, same, ran⟩

/-- A run over entries that are done only routes exactly if their bytes are stored. -/
theorem main_routes_only_iff {bodies : Dict (Bytes × String)}
    (read : localBodies world.readBytes manifest = .ok bodies)
    (apart : AllApart world manifest report) (legal : Legal before)
    (fresh : FreshDraws again before)
    (done : (batch (world.patched bodies)).UpTo (Entry.Done (world.patched bodies)) before
      (entries (reportById report) manifest)) :
    RoutedOnly later before (main world manifest report again later before).db ↔
      (batch (world.patched bodies)).UpTo (Entry.Stored (world.patched bodies)) before
        (entries (reportById report) manifest) := by
  obtain ⟨ran, _⟩ := @seedAll_run (world.patched bodies) (reportById report) manifest again before
    legal fresh
  obtain ⟨_, ends⟩ := @main_seeded world manifest report again later before legal fresh bodies read
  obtain ⟨still, stored⟩ := batch_still_iff ran (apart bodies read) done
  constructor
  · intro routed
    refine stored ?_
    obtain same | passed := ends
    · rw [← same]
      exact routed.documents
    · rw [← routed.documents, passed]
  · intro allStored
    rw [still allStored] at ends
    obtain same | passed := ends
    · rw [same]
      exact RoutedOnly.refl later before
    · rw [passed]
      exact RoutedOnly.pass later legal.reviews

/-- A file that is missing stops every run at once. -/
theorem main_missing {e : Exc} (read : localBodies world.readBytes manifest = .error e) :
    RoutedOnly later before (main world manifest report again later before).db := by
  have missing : (main world manifest report again later before).db = before := by
    rw [main, read]
  rw [missing]
  exact RoutedOnly.refl later before

/-- A second run, after any history of the review rows, only routes exactly if before it the bytes
of every entry are those of a document, up to an entry that raises. -/
theorem reseed_routes_only_iff (apart : AllApart world manifest report) (legal : Legal start)
    (fresh : FreshDraws draws start) (history : List (Context × ReviewCall))
    (freshAgain : FreshDraws again
      (reviewHistory history (main world manifest report draws routing start).db)) :
    let before := reviewHistory history (main world manifest report draws routing start).db
    RoutedOnly later before (main world manifest report again later before).db ↔
      AllStored world manifest report before := by
  intro before
  cases read : localBodies world.readBytes manifest with
  | error e =>
      refine iff_of_true (main_missing read) fun bodies found => ?_
      cases found.symm.trans read
  | ok bodies =>
      obtain ⟨kept, done, _⟩ :=
        @first_run world manifest report draws routing start bodies read apart legal fresh history
      rw [main_routes_only_iff read apart kept freshAgain done]
      constructor
      · intro stored bodies' read'
        obtain rfl := Except.ok.inj (read.symm.trans read')
        exact stored
      · exact fun allStored => allStored bodies read

/-- A document of `start` with the bytes of one entry does not have the text of a later one. -/
def Clear (world : SeedWorld) (start : Database) (entries : List Entry) : Prop :=
  entries.Pairwise fun e f => ∀ row ∈ start.documents,
    bytesHash? world.reads e.doc.url = some row.contentHash →
      textHash? world.reads f.doc.url ≠ some row.textHash

instance : Std.Symm (Entry.Apart world) where
  symm _ _ apart := ⟨fun hash first second => apart.bytes hash second first,
    fun hash first second => apart.texts hash second first⟩

/-- From there, every entry leaves its bytes with a document that no later entry takes over. -/
theorem batch_stored {entries : List Entry} {trace : List (Entry × Database × Database)}
    {finish : Database} (run : (batch world).Run entries start trace finish)
    (apart : entries.Pairwise (Entry.Apart world)) (clear : Clear world start entries) :
    (batch world).UpTo (Entry.Stored world) finish entries := by
  have stored : (batch world).UpTo (fun e d => ∃ row ∈ d.documents,
      bytesHash? world.reads e.doc.url = some row.contentHash ∧
        (row ∈ start.documents ∨ textHash? world.reads e.doc.url = some row.textHash))
      finish entries := by
    -- a row of the start, or with the bytes and the text of one entry
    refine run.upTo (I := fun d => ∀ row ∈ d.documents, row ∈ start.documents ∨ ∃ f ∈ entries,
      bytesHash? world.reads f.doc.url = some row.contentHash ∧
        textHash? world.reads f.doc.url = some row.textHash) ?_ ?_ ?_ (apart.and clear)
      fun row member => .inl member
    · rintro e he d d' ⟨plan, draw, planned, _, _, rfl⟩ origin row member
      obtain old | own := (SeedPlan.plans planned draw).mem_apply member
      · exact origin row old
      · exact .inr ⟨e, he, own⟩
    · rintro e he d d' ⟨plan, draw, planned, _, _, rfl⟩ origin
      have plans := SeedPlan.plans planned draw
      obtain ⟨row, member, bytes, _⟩ := @IngestPlan.For.document _ draw.now
        (draw.sourceOf e.doc.url d.sources) _ _ _ plans
      refine ⟨row, member, bytes, ?_⟩
      obtain old | own := plans.mem_apply member
      · obtain first | ⟨f, hf, same, text⟩ := origin row old
        · exact .inl first
        · by_cases equal : f = e
          · exact .inr (equal ▸ text)
          · have others := apart.forall hf he equal
            exact absurd bytes (others.bytes _ same)
      · exact .inr own.2
    · rintro e f d d' ⟨others, clear⟩ ⟨plan, draw, planned, legal, _, rfl⟩ ⟨row, member, bytes, own⟩
      have taken : textHash? world.reads f.doc.url ≠ some row.textHash :=
        own.elim (fun first => clear row first bytes) (others.texts _)
      exact ⟨row, (SeedPlan.plans planned draw).keeps legal.documents member taken, bytes, own⟩
  exact stored.imp (fun _ raises => raises) fun e ⟨row, member, bytes, _⟩ => ⟨row, member, bytes⟩

/-- So a second run only routes where the first has found no document with the bytes of one entry
and the text of a later one, as on a database without documents. -/
theorem reseed_after_clear_start (apart : AllApart world manifest report) (legal : Legal start)
    (clear : ∀ bodies, localBodies world.readBytes manifest = .ok bodies →
      Clear (world.patched bodies) start (entries (reportById report) manifest))
    (fresh : FreshDraws draws start) (history : List (Context × ReviewCall))
    (freshAgain : FreshDraws again
      (reviewHistory history (main world manifest report draws routing start).db)) :
    let before := reviewHistory history (main world manifest report draws routing start).db
    RoutedOnly later before (main world manifest report again later before).db := by
  intro before
  cases read : localBodies world.readBytes manifest with
  | error e => exact main_missing read
  | ok bodies =>
      obtain ⟨kept, done, trace, seeded, same, ran⟩ :=
        @first_run world manifest report draws routing start bodies read apart legal fresh history
      have stored := batch_stored ran (apart bodies read) (clear bodies read)
      refine (main_routes_only_iff read apart kept freshAgain done).mpr (stored.imp ?_ ?_)
      · rintro e ⟨exc, raised⟩
        exact ⟨exc, same.seedPlan.trans raised⟩
      · rintro e ⟨row, member, bytes⟩
        exact ⟨row, same.documents ▸ member, bytes⟩

end Reseed

/-! Two pages whose extractions have failed, and a document with the bytes of the first and the
text of the second: those bytes were once served as Markdown. -/

def firstBytes : Bytes := ascii "%PDF-1"

def secondBytes : Bytes := ascii "%PDF-2"

def pairWorld : SeedWorld where
  readBytes _ := .error (foreign "FileNotFoundError" "")
  http url := .response 200 url none (if url = "a" then firstBytes else secondBytes)
  parsers format bytes := .ok ⟨none, if format = .pdf ∧ bytes = firstBytes then "one" else "two"⟩
  sha256 bytes := String.ofList (bytes.map fun b => Char.ofNat b.toNat)
  rt := .ascii
  validationText _ := ""

def pairManifest : List ManifestDocument := [⟨"A", "a", "pdf", none⟩, ⟨"B", "b", "pdf", none⟩]

def failedReport (id : String) : ReportDocument :=
  ⟨id, none, some { pageExtraction with status := .failed }⟩

def pairReport : List ReportDocument := [failedReport "A", failedReport "B"]

def servedBefore : Database :=
  { Database.empty with
    documents :=
      [⟨3, 1, "a", "%PDF-1", "two", .markdown, 0, "postgres", firstBytes, "two", none, 0⟩] }

/-- The document that the earlier ingest leaves. -/
theorem servedBefore_ingested :
    (ingestSource ⟨fun url => .response 200 url (some "text/markdown") firstBytes,
      pairWorld.parsers, pairWorld.sha256, pairWorld.rt.repr, 0, 3⟩ 0 1 "a").transact postgres
        ⟨.empty, []⟩ .empty =
      (.ok ⟨3, "%PDF-1", "two", .markdown, none, 3, false, false⟩, servedBefore) := by
  rw [ingestSource_eq 0 1 rfl (detectFormat_of_mediaType (by decide) formatOfMediaType_markdown)
    (by rfl)]
  rfl

def pairSources : List Source := [⟨10, "a", 0⟩, ⟨11, "b", 0⟩]

/-- The document has moved to the bytes of the second page. -/
def servedAfter : Database :=
  { Database.empty with
    sources := pairSources
    documents :=
      [⟨3, 1, "b", "%PDF-2", "two", .markdown, 0, "postgres", secondBytes, "two", none, 0⟩] }

/-- Both pages, on a database that was empty. -/
def pairStored : Database :=
  { Database.empty with
    sources := pairSources
    documents :=
      [⟨10, 10, "a", "%PDF-1", "one", .pdf, 0, "postgres", firstBytes, "one", none, 0⟩,
        ⟨11, 11, "b", "%PDF-2", "two", .pdf, 0, "postgres", secondBytes, "two", none, 0⟩] }

theorem seedAll_pair :
    (seedAll pairWorld (reportById pairReport) pairManifest (spreadDraw 10) .empty).db =
      pairStored := by
  rfl

theorem seedAll_served :
    (seedAll pairWorld (reportById pairReport) pairManifest (spreadDraw 10) servedBefore).db =
      servedAfter := by
  rfl

theorem seedAll_again :
    (seedAll pairWorld (reportById pairReport) pairManifest (spreadDraw 20)
      servedAfter).db.documents = servedAfter.documents ++
        [⟨20, 10, "a", "%PDF-1", "one", .pdf, 0, "postgres", firstBytes, "one", none, 0⟩] := by
  rfl

/-- The script on the two pages is its loop and the pass. -/
theorem pair_seeded {draws : Nat → Draw} {d seeded : Database} (legal : Legal d)
    (fresh : FreshDraws draws d)
    (loop : (seedAll pairWorld (reportById pairReport) pairManifest draws d).db = seeded) :
    (main pairWorld pairManifest pairReport draws uncapped d).db = seeded ∨
      (main pairWorld pairManifest pairReport draws uncapped d).db =
        { seeded with fieldReviews := uncapped.after seeded.fieldReviews } := by
  obtain ⟨_, ends⟩ := @main_seeded pairWorld pairManifest pairReport draws uncapped d legal fresh
    [] rfl
  rw [show pairWorld.patched [] = pairWorld from rfl, loop] at ends
  exact ends

theorem pair_apart : AllApart pairWorld pairManifest pairReport := by
  intro bodies read
  cases read
  have bytes : bytesHash? pairWorld.reads "a" = some "%PDF-1" ∧
      bytesHash? pairWorld.reads "b" = some "%PDF-2" := ⟨rfl, rfl⟩
  have texts : textHash? pairWorld.reads "a" = some "one" ∧
      textHash? pairWorld.reads "b" = some "two" := ⟨by rfl, by rfl⟩
  refine List.pairwise_pair.mpr ⟨fun hash first second => ?_, fun hash first second => ?_⟩
  · exact absurd (bytes.1.symm.trans (first.trans (second.symm.trans bytes.2))) (by decide)
  · exact absurd (texts.1.symm.trans (first.trans (second.symm.trans texts.2))) (by decide)

theorem served_legal : Legal servedBefore ∧ Legal servedAfter :=
  ⟨⟨⟨List.nodup_singleton _, List.nodup_singleton _, List.nodup_singleton _⟩, empty_legal.reviews⟩,
    ⟨List.nodup_singleton _, List.nodup_singleton _, List.nodup_singleton _⟩, empty_legal.reviews⟩

/-- On an empty database, both pages are stored. -/
theorem reseed_routes_only_iff_pair :
    let before := (main pairWorld pairManifest pairReport (spreadDraw 10) uncapped .empty).db
    RoutedOnly uncapped before
      (main pairWorld pairManifest pairReport (spreadDraw 20) uncapped before).db := by
  intro before
  have first : before = pairStored :=
    (pair_seeded empty_legal (spreadDraw_empty 10) seedAll_pair).elim id fun routed => routed
  have freshAgain : FreshDraws (spreadDraw 20) before := by
    rw [first]
    exact spreadDraw_fresh (by simp [pairStored, pairSources]) (by simp [pairStored]) rfl rfl
  refine (reseed_routes_only_iff pair_apart empty_legal (spreadDraw_empty 10) [] freshAgain).mpr ?_
  intro bodies read
  cases read
  show (batch pairWorld).UpTo _ before _
  rw [first]
  exact .inr ⟨⟨_, List.mem_cons_self, rfl⟩,
    .inr ⟨⟨_, List.mem_cons_of_mem _ (List.mem_singleton_self _), rfl⟩, trivial⟩⟩

/-- The first run moves the document away from the first page, and the second run inserts another
for it. -/
theorem reseed_inserts_document :
    let before := (main pairWorld pairManifest pairReport (spreadDraw 10) uncapped servedBefore).db
    AllApart pairWorld pairManifest pairReport ∧ Legal servedBefore ∧
      FreshDraws (spreadDraw 10) servedBefore ∧ FreshDraws (spreadDraw 20) before ∧
      ¬ RoutedOnly uncapped before
        (main pairWorld pairManifest pairReport (spreadDraw 20) uncapped before).db := by
  intro before
  have fresh : FreshDraws (spreadDraw 10) servedBefore :=
    spreadDraw_fresh (by simp [servedBefore, Database.empty]) (by simp [servedBefore]) rfl rfl
  have freshAgain : FreshDraws (spreadDraw 20) servedAfter :=
    spreadDraw_fresh (by simp [servedAfter, pairSources]) (by simp [servedAfter]) rfl rfl
  have first : before = servedAfter :=
    (pair_seeded served_legal.1 fresh seedAll_served).elim id fun routed => routed
  rw [first]
  refine ⟨pair_apart, served_legal.1, fresh, freshAgain, fun routed => ?_⟩
  have grown : (main pairWorld pairManifest pairReport (spreadDraw 20) uncapped
      servedAfter).db.documents.length = 2 := by
    obtain same | passed := pair_seeded served_legal.2 freshAgain rfl
    · rw [same, seedAll_again]
      rfl
    · rw [passed, seedAll_again]
      rfl
  rw [routed.documents] at grown
  cases grown

end IncidentPipeline.SeedCorpus
