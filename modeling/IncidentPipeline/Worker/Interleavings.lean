import IncidentPipeline.Review.Presentation
import IncidentPipeline.Worker.Executions

/-!
# Every interleaving

Registrations and passes of any number of workers, statement by statement, in any order
and with any of them rolled back at any point. Whatever is committed is a sequence of
changes, so that `PipelineInvariant` holds of every committed state.
-/

namespace IncidentPipeline

open Python Tables Transactions

variable {maxAttempts : Nat} {allowed : Settings → JobEnv → Prop}

/-! ### The committed states -/

/-- What the transactions expect of each other is what they give each other. -/
theorem workers_sound (positive : 1 ≤ maxAttempts) :
    Sound (workerSystem maxAttempts allowed) (jobProtocol maxAttempts) Separate
      (Commits maxAttempts) where
  symm := Separate.symm
  fresh s j hj := by cases hj
  keeps given guarantee separate := Separate.keeps given guarantee separate
  own_fresh inv j hj := by cases hj
  begins program inv := workerProgram_commits program
  commits commits alive own inv replayed := (commits alive rfl _ replayed).invariant positive inv
  relies commits alive separate own inv replayed := by
    have change := commits alive rfl _ replayed
    exact ⟨change.grows inv.jobs.ids, fun j hj member =>
      change.keeps_job member (separate.not_touched hj)⟩

abbrev WorkerWorld := World Context Database RowOp Exc Reply

abbrev WorkersValid (maxAttempts : Nat) (w : WorkerWorld) : Prop :=
  (jobProtocol maxAttempts).Valid postgres Separate (Commits maxAttempts) w

variable {u v w : WorkerWorld} {label : Label RowOp} {labels : List (Label RowOp)}

theorem workers_valid (positive : 1 ≤ maxAttempts)
    (reachable : Reachable (workerSystem maxAttempts allowed) Database.empty w) :
    WorkersValid maxAttempts w :=
  reachable.valid (workers_sound positive) (pipelineInvariant_empty maxAttempts)

/-- A step commits a change, or it leaves the tables alone. -/
theorem Step.change (step : Step (workerSystem maxAttempts allowed) u label v)
    (valid : WorkersValid maxAttempts u) :
    ((∀ s, label ≠ .committed s) ∧ v.committed = u.committed) ∨ ∃ s, label = .committed s ∧
      Change maxAttempts u.committed ((held s).map Job.id) v.committed ∧ Owns s u.committed := by
  cases step with
  | @commit d d' before after session a alive applies =>
      obtain ⟨own, done⟩ := valid.finished
      exact .inr ⟨session, rfl, done alive rfl d' applies, own⟩
  | «begin» => exact .inl ⟨by simp, rfl⟩
  | statement => exact .inl ⟨by simp, rfl⟩
  | raise => exact .inl ⟨by simp, rfl⟩
  | crash => exact .inl ⟨by simp, rfl⟩

/-- A job that has ended stays as it is. -/
theorem Run.keeps_terminal (positive : 1 ≤ maxAttempts)
    (run : Run (workerSystem maxAttempts allowed) w labels v) (valid : WorkersValid maxAttempts w)
    {j : Job} (member : j ∈ w.committed.jobs) (ended : j.Terminal) :
    WorkersValid maxAttempts v ∧ j ∈ v.committed.jobs := by
  apply run.induction ⟨valid, member⟩
  rintro a label b step ⟨valid, member⟩
  refine ⟨step.preserves (workers_sound positive) valid, ?_⟩
  obtain ⟨_, same⟩ | ⟨s, _, change, _⟩ := Step.change step valid
  · exact same ▸ member
  · exact (change.grows valid.invariant.jobs.ids).terminal j member ended

/-! ### Jobs that are let go -/

/-- The step ends the hold on a job without a commit: the server aborts the transaction,
or the transaction raises or is lost. -/
def Releases (label : Label RowOp) (j : Job) : Prop :=
  match label with
  | .sent before after => j ∈ held before ∧ j ∉ held after
  | .raised s => j ∈ held s
  | .crashed s => j ∈ held s
  | _ => False

/-- A transaction either keeps what it holds, or it lets everything go. -/
theorem held_serve {ρ : Type} (s : Sql ρ) (m : Moment Context Database Exc)
    (session : Session RowOp) :
    held (postgres.serve s m session).2 = [] ∨
      ∀ j ∈ held session, j ∈ held (postgres.serve s m session).2 := by
  obtain ⟨e, _, served⟩ | ⟨_, e, served⟩ | ⟨_, alive, _, d, reply, ops, _, _, _, _, served⟩ :=
    postgres.serve_cases s m session
  · rw [served]
    exact .inr fun j hj => hj
  · rw [served]
    exact .inl rfl
  · rw [served]
    refine .inr fun j hj => ?_
    rw [held_of_alive alive] at hj
    rw [held_of_alive (show ({ session with log := session.log ++ ops } : Session RowOp).aborted =
      false from alive), List.filterMap_append]
    exact List.mem_append_left _ hj

/-- A job that was let go is in the tables as it was, and nobody holds it. -/
theorem Step.releases (step : Step (workerSystem maxAttempts allowed) u label v)
    (valid : WorkersValid maxAttempts u) {j : Job} (releases : Releases label j) :
    v.committed = u.committed ∧ j ∈ v.committed.jobs ∧ j.status = .queued ∧
      ∀ t ∈ v.opened, ∀ k ∈ held t.session, k.id ≠ j.id := by
  cases step with
  | @statement d before after session ρ s next answer context given fault served =>
      obtain ⟨mine, gone⟩ := releases
      obtain ⟨member, queued⟩ := (valid.holds ⟨session, .stmt s next⟩ (by simp)).own j mine
      have others := valid.compatible_others Separate.symm
      have nothing : held answer.2 = [] := by
        rw [served] at gone ⊢
        obtain nothing | keeps := held_serve s ⟨d, context, fault⟩ session
        · exact nothing
        · exact absurd (keeps j mine) gone
      refine ⟨rfl, member, queued, fun t ht k hk same => ?_⟩
      obtain early | late := List.mem_append.mp ht
      · exact others t (List.mem_append_left _ early) j mine k hk same.symm
      · obtain rfl | late := List.mem_cons.mp late
        · rw [nothing] at hk
          cases hk
        · exact others t (List.mem_append_right _ late) j mine k hk same.symm
  | @raise d before after session e =>
      obtain ⟨member, queued⟩ := (valid.holds ⟨session, .ret (.error e)⟩ (by simp)).own j releases
      exact ⟨rfl, member, queued, fun t ht k hk same =>
        valid.compatible_others Separate.symm t ht j releases k hk same.symm⟩
  | @crash d before after t =>
      obtain ⟨member, queued⟩ := (valid.holds t (by simp)).own j releases
      exact ⟨rfl, member, queued, fun t ht k hk same =>
        valid.compatible_others Separate.symm t ht j releases k hk same.symm⟩
  | «begin» => exact releases.elim
  | commit => exact releases.elim

/-- What a claim leaves in the session of its transaction. -/
theorem serve_claim {d : Database} {now visibilityTimeout : Time} {job : Job}
    (target : claimTarget now visibilityTimeout ⟨d, []⟩ d = some job)
    (writes : (postgres.replay (claimLog job now) d).toBool = true) :
    (postgres.serve (claimSql now visibilityTimeout) ⟨d, ⟨d, []⟩, none⟩ .fresh).2 =
      ⟨claimLog job now, false⟩ := by
  unfold claimLog at writes ⊢
  cases written : postgres.replay [.updateJob job (job.claimed now)] d with
  | error e => simp [written, Except.toBool] at writes
  | ok d' => simp [Server.serve, claimSql, sql, target, written]

/-- A pass that starts while nobody else is at work can claim the first job in line. -/
theorem claim_reachable {d : Database} {cfg : Settings} {env : JobEnv} {job : Job}
    (reachable : Reachable (workerSystem maxAttempts allowed) Database.empty ⟨d, []⟩)
    (same : cfg.jobMaxAttempts = maxAttempts) (meets : allowed cfg env)
    (target : claimTarget env.now cfg.jobVisibilityTimeout ⟨d, []⟩ d = some job)
    (writes : (postgres.replay (claimLog job env.now) d).toBool = true) :
    ∃ t, Reachable (workerSystem maxAttempts allowed) Database.empty ⟨d, [t]⟩ ∧
      t.session = ⟨claimLog job env.now, false⟩ := by
  have begun := reachable.run (Run.single (.begin (.run same meets)))
  obtain ⟨next, program⟩ : ∃ next, (runOnce cfg env).bind
      (fun claimed => (.ret (.ok (.worked claimed)) : Db Reply)) =
        .stmt (claimSql env.now cfg.jobVisibilityTimeout) next := ⟨_, rfl⟩
  rw [program] at begun
  have given : (workerSystem maxAttempts allowed).context
      (([] ++ [] : List (Txn Context Database RowOp Exc Reply)).map Txn.session) ⟨d, []⟩ := by
    simp [workerSystem]
  have step := @Step.statement Context Database RowOp Exc Reply
    (workerSystem maxAttempts allowed) d [] [] .fresh _
    (claimSql env.now cfg.jobVisibilityTimeout) next _ ⟨d, []⟩ given none rfl
  exact ⟨_, begun.run (Run.single step), serve_claim target writes⟩

/-! ### The queue -/

/-- The queue under every interleaving of registrations and workers: what holds of the
committed jobs, that ended jobs stay as they are, that a pass which is rolled back leaves
its job as it was and claimable, and that no two open passes hold the same job. -/
theorem queue_interleavings (positive : 1 ≤ maxAttempts)
    (reachable : Reachable (workerSystem maxAttempts allowed) Database.empty w) :
    (∀ j ∈ w.committed.jobs, j.status ≠ .running ∧
      (j.status = .queued → j.attempts < maxAttempts) ∧ j.attempts ≤ maxAttempts ∧
      (j.succeededAt.isSome = true ↔ j.status = .succeeded)) ∧
    (∀ labels v, Run (workerSystem maxAttempts allowed) w labels v → ∀ j ∈ w.committed.jobs,
      j.status = .succeeded ∨ j.status = .deadLetter →
        j ∈ v.committed.jobs ∧ ∀ k ∈ v.committed.jobs, k.id = j.id → k = j) ∧
    (∀ label v, Step (workerSystem maxAttempts allowed) w label v → ∀ j, Releases label j →
      v.committed = w.committed ∧ j ∈ v.committed.jobs ∧
        (∀ now visibilityTimeout, claimable now visibilityTimeout j = true) ∧
        ∀ t ∈ v.opened, ∀ k ∈ held t.session, k.id ≠ j.id) ∧
    w.opened.Pairwise fun s t => ∀ j ∈ held s.session, ∀ k ∈ held t.session, j.id ≠ k.id := by
  have valid := workers_valid positive reachable
  refine ⟨fun j hj => ?_, fun labels v run j hj ended => ?_, fun label v step j let_go => ?_,
    valid.compatible⟩
  · have settled := valid.invariant.jobs.settled j hj
    exact ⟨settled.idle, settled.waiting, settled.bounded, settled.succeeded⟩
  · obtain ⟨later, member⟩ := Run.keeps_terminal positive run valid hj ended
    exact ⟨member, fun k hk same => later.invariant.jobs.ids.eq_of_key hk member same⟩
  · obtain ⟨same, member, queued, free⟩ := Step.releases step valid let_go
    refine ⟨same, member, fun now visibilityTimeout => ?_, free⟩
    simp [claimable, queued]

/-! A source that is registered, and a pass that has claimed its job. -/

def registered : Database :=
  { Database.empty with
    sources := [⟨1, "https://example.com/pm", 0⟩]
    jobs := [newJob 2 1 .ingest none 0] }

theorem registered_reachable (allowed : Settings → JobEnv → Prop) :
    Reachable (workerSystem 3 allowed) Database.empty ⟨registered, []⟩ := by
  have alone : (workerSystem 3 allowed).context [] ⟨.empty, []⟩ := by
    simp [workerSystem]
  exact Reachable.transact ⟨[], .refl⟩
    (.register ⟨0, 1, 2⟩ "https://example.com/pm") alone rfl

/-- Settings and surroundings for a pass: the web answers with a small text. -/
def smallSettings : Settings := ⟨60, 3, 2, 7/10, none, fun a b => a ≤ b⟩

def smallIngest : IngestEnv where
  http _ := .response 200 "https://example.com/pm" (some "text/markdown") [104, 105]
  parsers _ _ := .ok ⟨none, "hi"⟩
  sha256 bytes := String.ofList (bytes.map fun b => Char.ofNat b.toNat)
  repr s := s
  fetchedAt := 5
  documentId := 3

def smallEnv : JobEnv := ⟨5, smallIngest, 4, .ascii, .error (foreign "E" ""), ⟨5, 6, id⟩⟩

theorem claimTarget_registered :
    claimTarget 5 60 ⟨registered, []⟩ registered = some (newJob 2 1 .ingest none 0) :=
  claimTarget_single (by decide) (by decide) (by simp)

/-- The pass is lost, and its job is as it was. -/
theorem queue_interleavings_crash :
    ∃ w v : WorkerWorld, ∃ s, Step (workerSystem 3 fun _ _ => True) w (.crashed s) v ∧
      newJob 2 1 .ingest none 0 ∈ v.committed.jobs ∧
        claimable 9 60 (newJob 2 1 .ingest none 0) = true := by
  obtain ⟨t, reachable, session⟩ := @claim_reachable 3 _ registered smallSettings smallEnv _
    (registered_reachable fun _ _ => True) rfl trivial claimTarget_registered (by decide)
  have crash := @Step.crash Context Database RowOp Exc Reply
    (workerSystem 3 fun _ _ => True) registered [] [] t
  have law := (queue_interleavings (by decide) reachable).2.2.1 _ _ crash (newJob 2 1 .ingest none 0)
    (by
      show _ ∈ held t.session
      rw [session]
      decide)
  exact ⟨_, _, _, crash, law.2.1, law.2.2.1 9 60⟩

/-! ### The pipeline -/

theorem Extracted.identities_nodup {d : Database} (extracted : Extracted d) :
    ((d.extractions.filter (·.status = .complete)).map Extraction.identity).Nodup := by
  have distinct : d.extractions.Nodup := List.Nodup.of_map _ extracted.ids
  refine List.Nodup.map_on ?_ (distinct.filter _)
  intro x hx y hy same
  obtain ⟨hx, completeX⟩ := List.mem_filter.mp hx
  obtain ⟨hy, completeY⟩ := List.mem_filter.mp hy
  exact extracted.identities x hx y hy (of_decide_eq_true completeX) (of_decide_eq_true completeY)
    same

/-- The five tables under every interleaving of registrations and workers: ingests and
extract jobs balance and a failed ingest leaves nothing behind, every document is the
target of an extract job, no reference dangles, a complete extraction has exactly the
review rows that its record asks for and a failed one has none, and complete extractions
are unique. A score that is stored as null comes back as NaN. -/
theorem pipeline_tables (positive : 1 ≤ maxAttempts)
    (reachable : Reachable (workerSystem maxAttempts allowed) Database.empty w) :
    let d := w.committed
    (∀ source, extractJobs source d.jobs = ingestedJobs source d.jobs) ∧
    (∀ s v, Step (workerSystem maxAttempts allowed) w (.committed s) v →
      ∀ job ∈ held s, job.kind = .ingest → ∀ marked ∈ v.committed.jobs, marked.id = job.id →
        marked.status ≠ .succeeded →
          v.committed = { d with jobs := replaceRow Job.id job.id marked d.jobs }) ∧
    (∀ x ∈ d.documents, ∃ j ∈ d.jobs, j.kind = .extract ∧ j.documentId = some x.id) ∧
    (∀ j ∈ d.jobs, ∃ s ∈ d.sources, s.id = j.sourceId) ∧
    (∀ j ∈ d.jobs, ∀ id, j.documentId = some id → ∃ x ∈ d.documents, x.id = id) ∧
    (∀ x ∈ d.extractions, ∃ y ∈ d.documents, y.id = x.documentId) ∧
    (∀ r ∈ d.fieldReviews, ∃ x ∈ d.extractions, x.id = r.extractionId) ∧
    (∀ x ∈ d.extractions, x.status = .complete →
      ∃ record confidence, x.record = some record ∧ x.perFieldConfidence = some confidence ∧
        (∀ field ∈ recordFields, (∃ value, record.member? field = some value) ∧
          ∃ score, confidence.member? field = some score ∧
            (score = .null ∨ ∃ q, score = .num q)) ∧
        (d.fieldReviews.filter (·.extractionId = x.id)).map
            (fun r => (r.field, r.modelValue, r.confidence)) =
          recordFields.map fun field =>
            (field, memberOf record field, numberOf (memberOf confidence field))) ∧
    (∀ x ∈ d.extractions, x.status = .failed →
      d.fieldReviews.filter (·.extractionId = x.id) = []) ∧
    ((d.extractions.filter (·.status = .complete)).map Extraction.identity).Nodup := by
  have valid := workers_valid positive reachable
  obtain ⟨_, jobs, refs, handover, extracted⟩ := valid.invariant
  refine ⟨handover.balance, ?_, handover.targeted, refs.jobSource, refs.jobDocument,
    refs.extractionDocument, refs.reviewExtraction, ?_, ?_, extracted.identities_nodup⟩
  · intro s v step job mine kind marked after same failed
    have later := step.preserves (workers_sound positive) valid
    obtain ⟨other, _⟩ | ⟨_, label, change, owns⟩ := Step.change step valid
    · exact absurd rfl (other s)
    · cases label
      exact change.failed_ingest jobs.ids later.invariant.jobs.ids (owns job mine).1
        (List.mem_map_of_mem mine) kind after same failed
  · intro x hx complete
    obtain ⟨record, confidence, hasRecord, hasConfidence, filled⟩ := extracted.filled x hx complete
    refine ⟨record, confidence, hasRecord, hasConfidence, filled, ?_⟩
    have rows := extracted.rows x hx
    rw [Extraction.expected, complete, hasRecord, hasConfidence] at rows
    exact rows
  · intro x hx failed
    have rows := extracted.rows x hx
    rw [Extraction.expected, failed] at rows
    exact List.map_eq_nil_iff.mp rows

/-- So the queue of reviews shows every routed row, given the primary key of the documents. -/
theorem reachable_joined (positive : 1 ≤ maxAttempts)
    (reachable : Reachable (workerSystem maxAttempts allowed) Database.empty w)
    (documents : Keyed Document.id w.committed.documents) : Joined w.committed := by
  obtain ⟨_, _, refs, _, extracted⟩ := (workers_valid positive reachable).invariant
  exact ⟨extracted.ids, documents, refs.reviewExtraction, refs.extractionDocument⟩

end IncidentPipeline
