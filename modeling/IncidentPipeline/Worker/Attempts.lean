import IncidentPipeline.Worker.RunOnce

/-!
# How often a job is started

A pass that ends by an exception while it holds its job loses the attempt. Between
workers that do not crash this takes a server error or a text that the driver refuses;
where neither happens, every start but the current one is on record, and the number of
attempts on record is bounded.
-/

namespace IncidentPipeline

open Python Tables Transactions

/-! ### The exceptions of a stage -/

/-- The driver takes the text. -/
def Taken (e : Exc) : Prop := hasNul e.message = false

/-- The exceptions that come from outside have texts that the driver takes. -/
structure TakenTexts (env : JobEnv) : Prop where
  fetch : ∀ url e, fetch env.ingest.http url = .error e → Taken e
  format : ∀ (fetched : FetchedDocument) e,
    detectFormat env.ingest.repr fetched.url fetched.contentType fetched.rawBytes = .error e →
      Taken e
  parse : ∀ rawBytes format e, parseDocument env.ingest.parsers rawBytes format = .error e → Taken e
  client : ∀ e, env.client = .error e → Taken e

theorem taken_refusedText {texts : List String} {e : Exc} (refused : refusedText texts = some e) :
    Taken e := by
  rw [refusedText] at refused
  split at refused
  · obtain rfl := Option.some.inj refused
    rfl
  · cases refused

theorem hasNul_append (s t : String) : hasNul (s ++ t) = (hasNul s || hasNul t) := by
  simp [hasNul, String.toList_append]

theorem hasNul_toString (n : Nat) : hasNul (toString n) = false := by
  show (Nat.repr n).toList.contains '\x00' = false
  rw [Nat.toList_repr]
  by_contra found
  have member : '\x00' ∈ Nat.toDigits 10 n := by simpa using found
  have digit := Nat.isDigit_of_mem_toDigits (by decide) (by decide) member
  exact absurd digit (by decide)

theorem raises_select {ρ α : Type} {texts : List String} {read : Database → ρ} {f : ρ → Db α}
    (later : ∀ reply, (f reply).Raises Taken) :
    ((Prog.execute (select texts read)).bind f).Raises Taken :=
  Prog.raises_execute (fun _ refused => taken_refusedText refused) fun _ => later

/-- A statement without text parameters. -/
theorem raises_sql {ρ α : Type} {run : Context → Database → Except Exc (ρ × List RowOp)}
    {f : ρ → Db α} (later : ∀ reply, (f reply).Raises Taken) :
    ((Prog.execute (sql run)).bind f).Raises Taken :=
  Prog.raises_execute (fun _ refused => by cases refused) fun _ => later

theorem ingestSource_raises {env : JobEnv} (texts : TakenTexts env) {now : Time} {sourceId : Uuid}
    {url : String} : (ingestSource env.ingest now sourceId url).Raises Taken := by
  rw [ingestSource]
  simp only [Prog.bind_eq, Prog.ofExcept]
  refine Prog.raises_bind (texts.fetch url) fun fetched => ?_
  refine raises_select fun sameBytes => ?_
  cases sameBytes with
  | some document => exact Prog.raises_ok
  | none =>
      refine Prog.raises_bind (texts.format fetched) fun format => ?_
      refine Prog.raises_bind (texts.parse fetched.rawBytes format) fun parsed => ?_
      refine raises_select fun sameText => ?_
      cases sameText with
      | some document =>
          exact Prog.raises_execute (fun _ => taken_refusedText) fun _ _ => Prog.raises_ok
      | none => exact Prog.raises_execute (fun _ => taken_refusedText) fun _ _ => Prog.raises_ok

/-- What the model loop raises goes into the failed row first, so that a text with a NUL
is refused there. -/
theorem extractDocument_raises {rt : Runtime} {ids : ExtractIds} {now : Time}
    {client : LLMClient} {attempts : Nat} {documentId : Uuid} :
    (extractDocument rt ids now client attempts documentId).Raises Taken := by
  rw [extractDocument]
  refine raises_select fun existing => ?_
  cases existing with
  | some row => exact Prog.raises_ok
  | none =>
      refine raises_select fun found => ?_
      cases found with
      | none =>
          refine Prog.raises_error ?_
          show hasNul _ = false
          rw [hasNul_append, hasNul_append, hasNul_toString]
          rfl
      | some document =>
          dsimp only
          cases extract rt client attempts document.text document.title document.sourceUrl with
          | error e =>
              refine Prog.raises_execute (fun _ => taken_refusedText) fun sent _ => ?_
              refine Prog.raises_error ?_
              have stored := refusedText_eq_none.mp sent (errorText e) (by
                simp [failedExtraction])
              rw [errorText, hasNul_append, hasNul_append, Bool.or_eq_false_iff] at stored
              exact stored.2
          | ok result =>
              refine Prog.raises_execute (fun _ => taken_refusedText) fun _ _ => ?_
              refine Prog.raises_bind ?_ fun _ => Prog.raises_ok
              exact Prog.raises_execute (fun _ => taken_refusedText) fun _ _ => Prog.raises_ok

theorem routePending_raises {collation : Collation} {now : Time} {floor : ℚ}
    {budget : Option Int} : (routePending collation now floor budget).Raises Taken := by
  rw [routePending]
  split
  · exact Prog.raises_error rfl
  · refine raises_select fun _ => raises_select fun _ => raises_select fun _ => ?_
    show Prog.Raises _ (if _ then _ else _)
    split
    · exact Prog.raises_ok
    · exact raises_sql fun _ => Prog.raises_ok

theorem enqueue_raises {jobId sourceId : Uuid} {now : Time} {kind : JobKind}
    {documentId : Option Uuid} : (enqueue jobId now sourceId kind documentId).Raises Taken := by
  rw [enqueue]
  split
  · exact Prog.raises_error rfl
  · exact raises_sql fun _ => Prog.raises_ok

/-- A stage raises texts that the driver takes, if what comes from outside does. -/
theorem processJob_raises {cfg : Settings} {env : JobEnv} (texts : TakenTexts env) (job : Job) :
    (processJob cfg env job).Raises Taken := by
  rw [processJob]
  cases job.kind with
  | ingest =>
      refine raises_select fun source => ?_
      cases source with
      | none => exact Prog.raises_error rfl
      | some row =>
          exact Prog.raises_bind (ingestSource_raises texts) fun _ =>
            Prog.raises_bind enqueue_raises fun _ => Prog.raises_ok
  | extract =>
      show Prog.Raises _ (processExtract cfg env job)
      rw [processExtract]
      cases job.documentId with
      | none => exact Prog.raises_error rfl
      | some documentId =>
          refine Prog.raises_bind texts.client fun client =>
            Prog.raises_bind extractDocument_raises fun outcome => ?_
          split
          · exact Prog.raises_ok
          · exact Prog.raises_bind routePending_raises fun _ => Prog.raises_ok

/-! ### Exceptions that leave a pass -/

section Pass

variable {maxAttempts : Nat} {cfg : Settings} {env : JobEnv}
  {schedule : Nat → Moment Context Database Exc}

/-- An exception that leaves a pass leaves no job claimed. -/
theorem runOnce_raised (texts : TakenTexts env) {x : Exc}
    (raised : ((runOnce cfg env).run postgres schedule .fresh).result = .error x) :
    held ((runOnce cfg env).run postgres schedule .fresh).session = [] := by
  obtain ⟨e, failed, session⟩ | ⟨nothing, _⟩ | ⟨job, claims, _⟩ := claimRun_cases cfg env schedule
  · rw [runOnce_failed failed, session]
    rfl
  · rw [runOnce_idle nothing] at raised
    cases raised
  · rw [runOnce_claimed claims] at raised ⊢
    obtain aborted | ⟨e, failed, nul⟩ := finishJob_raised raised
    · exact held_of_aborted aborted
    · cases alive : (stageRun cfg env schedule job).session.aborted with
      | true =>
          apply held_of_aborted
          exact Prog.run_aborted _ alive
      | false =>
          have taken : hasNul e.message = false :=
            (processJob_raises texts (job.claimed env.now)).run alive failed
          cases nul.symm.trans taken

theorem KeepsJobs.claimOf {o : RowOp} (keeps : KeepsJobs o) : claimOf o = none := by
  cases o with
  | updateJob before after => exact absurd rfl (keeps before after)
  | _ => rfl

theorem registerSource_keepsJobs {env : RegisterEnv} {url : String} :
    (registerSource env url).Writes KeepsJobs :=
  registerSource_writes (fun _ _ _ => nofun) fun _ _ _ => nofun

/-- A program that raises holds nothing at its end. -/
theorem workerProgram_raised {p : Db Reply}
    (program : WorkerProgram maxAttempts (fun _ env => TakenTexts env) p)
    (schedule : Nat → Moment Context Database Exc) (x : Exc)
    (raised : (p.run postgres schedule .fresh).result = .error x) :
    held (p.run postgres schedule .fresh).session = [] := by
  cases program with
  | register env url =>
      have writes : ((registerSource env url).bind fun ids =>
          (.ret (.ok (.registered ids.1 ids.2)) : Db Reply)).Writes KeepsJobs :=
        Prog.writes_bind registerSource_keepsJobs fun _ => trivial
      obtain ⟨ops, log, keeps⟩ := @Prog.Writes.run _ _ _ _ _ _ postgres _ writes schedule .fresh
      generalize Prog.run _ _ _ _ = out at log ⊢
      cases aborted : out.session.aborted with
      | true => exact held_of_aborted aborted
      | false =>
          rw [held_of_alive aborted, log, List.filterMap_eq_nil_iff]
          exact fun o ho => (keeps o ho).claimOf
  | @run cfg env same texts =>
      rw [Prog.run_bind] at raised ⊢
      cases result : ((runOnce cfg env).run postgres schedule .fresh).result with
      | ok claimed =>
          rw [result] at raised
          cases raised
      | error e => exact runOnce_raised texts result

end Pass

/-! ### Starts -/

/-- Whether a transaction holds the job. -/
def holdsJob (id : Uuid) (s : Session RowOp) : Bool := (held s).any (·.id = id)

theorem holdsJob_iff {id : Uuid} {s : Session RowOp} :
    holdsJob id s = true ↔ ∃ j ∈ held s, j.id = id := by
  simp [holdsJob]

/-- The step starts the job: a transaction has claimed it. -/
def startsJob (id : Uuid) : Label RowOp → Bool
  | .sent before after => holdsJob id after && !holdsJob id before
  | _ => false

/-- The step takes a job from a transaction that has not ended it: its worker is lost, or
the server answers with an error. -/
def Interrupts : Label RowOp → Prop
  | .sent before after => held before ≠ [] ∧ held after = []
  | .crashed s => held s ≠ []
  | _ => False

section Count

variable {maxAttempts : Nat} {d d' : Database} {id : Uuid}

/-- A change that writes the job records one attempt more, and no other loses one. -/
theorem Change.attemptsOf {touched : List Uuid} (change : Change maxAttempts d touched d')
    (ids : Keyed Job.id d.jobs) (ids' : Keyed Job.id d'.jobs) :
    attemptsOf id d + (if id ∈ touched then 1 else 0) ≤ attemptsOf id d' := by
  split
  · next written =>
      obtain ⟨j, member, k, after, rfl, same, _, more⟩ := change.attempts written
      rw [attemptsOf_member ids member, ← same, attemptsOf_member ids' after]
      omega
  · next other =>
      by_cases present : ∃ j ∈ d.jobs, j.id = id
      · obtain ⟨j, member, rfl⟩ := present
        rw [attemptsOf_member ids member, attemptsOf_member ids' (change.keeps_job member other)]
        omega
      · rw [attemptsOf_absent fun k hk same => present ⟨k, hk, same⟩]
        omega

end Count

section Starts

variable {maxAttempts : Nat} {u v w : WorkerWorld} {label : Label RowOp}
  {labels : List (Label RowOp)} {id : Uuid}

/-- Some transaction holds the job. -/
def Underway (id : Uuid) (w : WorkerWorld) : Prop := ∃ t ∈ w.opened, holdsJob id t.session = true

/-- All starts are on record, but for the one that is under way. -/
def Counted (id : Uuid) (starts : Nat) (w : WorkerWorld) : Prop :=
  starts ≤ attemptsOf id w.committed ∨
    (Underway id w ∧ starts ≤ attemptsOf id w.committed + 1)

theorem Counted.mono {starts : Nat} (counted : Counted id starts u)
    (attempts : attemptsOf id u.committed ≤ attemptsOf id v.committed)
    (underway : Underway id u → Underway id v) : Counted id starts v := by
  obtain recorded | ⟨held, recorded⟩ := counted
  · exact .inl (by omega)
  · exact .inr ⟨underway held, by omega⟩

/-- A transaction that holds nothing makes no difference when it ends. -/
theorem Underway.remove {committed : Database}
    {before after : List (Txn Context Database RowOp Exc Reply)}
    {t : Txn Context Database RowOp Exc Reply} (nothing : holdsJob id t.session = false)
    (underway : Underway id ⟨committed, before ++ t :: after⟩) :
    ∃ t ∈ before ++ after, holdsJob id t.session = true := by
  obtain ⟨s, member, holds⟩ := underway
  obtain early | late := List.mem_append.mp member
  · exact ⟨s, List.mem_append_left _ early, holds⟩
  · obtain rfl | late := List.mem_cons.mp late
    · cases nothing.symm.trans holds
    · exact ⟨s, List.mem_append_right _ late, holds⟩

theorem holdsJob_nothing {s : Session RowOp} (nothing : held s = []) : holdsJob id s = false := by
  simp [holdsJob, nothing]

/-- One step keeps the count. -/
theorem Step.counted {allowed : Settings → JobEnv → Prop}
    (step : Step (workerSystem maxAttempts allowed) u label v) (positive : 1 ≤ maxAttempts)
    (valid : WorkersValid maxAttempts u) (steady : ¬ Interrupts label)
    (raised : ∀ s, label = .raised s → held s = []) {starts : Nat} (counted : Counted id starts u) :
    Counted id (starts + if startsJob id label then 1 else 0) v := by
  have later := step.preserves (workers_sound positive) valid
  cases step with
  | «begin» =>
      refine counted.mono le_rfl fun ⟨t, member, holds⟩ => ?_
      exact ⟨t, List.mem_cons_of_mem _ member, holds⟩
  | @statement d before after session ρ s next answer context given fault served =>
      change answer = postgres.serve s ⟨d, context, fault⟩ session at served
      have others := later.compatible_others Separate.symm
      cases now : holdsJob id answer.2 with
      | true =>
          have holder : Underway id ⟨d, before ++ ⟨answer.2, next answer.1⟩ :: after⟩ :=
            ⟨⟨answer.2, next answer.1⟩, by simp, now⟩
          cases earlier : holdsJob id session with
          | true =>
              have starting : startsJob id (.sent session answer.2) = false := by
                simp [startsJob, now, earlier]
              rw [starting]
              exact counted.mono le_rfl fun _ => holder
          | false =>
              have starting : startsJob id (.sent session answer.2) = true := by
                simp [startsJob, now, earlier]
              rw [starting]
              -- nobody else holds the job, so every start before is on record
              obtain recorded | ⟨underway, _⟩ := counted
              · exact .inr ⟨holder, by simpa using recorded⟩
              · obtain ⟨t, member, holds⟩ := Underway.remove earlier underway
                obtain ⟨j, mine, rfl⟩ := holdsJob_iff.mp now
                obtain ⟨k, other, same⟩ := holdsJob_iff.mp holds
                exact absurd same.symm (others t member j mine k other)
      | false =>
          have starting : startsJob id (.sent session answer.2) = false := by
            simp [startsJob, now]
          rw [starting]
          refine counted.mono le_rfl fun underway => ?_
          have nothing : holdsJob id session = false := by
            rw [← Bool.not_eq_true]
            intro holds
            obtain ⟨j, mine, rfl⟩ := holdsJob_iff.mp holds
            obtain lost | keeps := held_serve s ⟨d, context, fault⟩ session
            · rw [← served] at lost
              exact steady ⟨List.ne_nil_of_mem mine, lost⟩
            · rw [← served] at keeps
              exact absurd (holdsJob_iff.mpr ⟨j, keeps j mine, rfl⟩) (by simp [now])
          obtain ⟨t, member, holds⟩ := Underway.remove nothing underway
          refine ⟨t, ?_, holds⟩
          simp only [List.mem_append, List.mem_cons] at member ⊢
          exact member.imp_right .inr
  | @commit d d' before after session a alive applies =>
      have change : Change maxAttempts d ((held session).map Job.id) d' :=
        valid.finished.2 alive rfl d' applies
      have grows : attemptsOf id d + (if id ∈ (held session).map Job.id then 1 else 0) ≤
          attemptsOf id d' := change.attemptsOf valid.invariant.jobs.ids later.invariant.jobs.ids
      show Counted id (starts + 0) _
      cases mine : holdsJob id session with
      | true =>
          have written : id ∈ (held session).map Job.id :=
            List.mem_map.mpr (holdsJob_iff.mp mine)
          rw [if_pos written] at grows
          have bound : starts ≤ attemptsOf id d + 1 := by
            obtain recorded | ⟨_, recorded⟩ := counted
            · exact recorded.trans (Nat.le_succ _)
            · exact recorded
          exact .inl (bound.trans grows)
      | false =>
          have kept : attemptsOf id d ≤ attemptsOf id d' := le_trans (Nat.le_add_right _ _) grows
          exact counted.mono kept (Underway.remove mine)
  | @raise d before after session e =>
      exact counted.mono le_rfl (Underway.remove (holdsJob_nothing (raised session rfl)))
  | @crash d before after t =>
      refine counted.mono le_rfl (Underway.remove (holdsJob_nothing ?_))
      exact Classical.not_not.mp steady

/-- Every start of a job but the current one is on record. -/
theorem Run.counted
    (run : Run (workerSystem maxAttempts fun _ env => TakenTexts env) ⟨.empty, []⟩ labels w)
    (positive : 1 ≤ maxAttempts) (steady : ∀ label ∈ labels, ¬ Interrupts label) :
    Counted id (labels.countP (startsJob id)) w := by
  induction run with
  | refl => exact .inl (Nat.zero_le _)
  | @snoc labels u v label run step ih =>
      have counted := ih fun l hl => steady l (List.mem_append_left _ hl)
      have valid := workers_valid positive ⟨labels, run⟩
      have ends := run.outcomes (P := fun out => ∀ x, out.result = .error x → held out.session = [])
        (fun p program schedule => workerProgram_raised program schedule) (by simp)
      rw [List.countP_append, List.countP_singleton]
      refine Step.counted step positive valid (steady label (by simp)) (fun s same => ?_) counted
      cases step with
      | @raise d before after session e =>
          cases same
          exact ends ⟨s, .ret (.error e)⟩ (by simp) (fun _ => ⟨d, ⟨d, []⟩, none⟩) e rfl
      | _ => cases same

/-- No job is started more often than the attempts allow. -/
theorem starts_bounded
    (run : Run (workerSystem maxAttempts fun _ env => TakenTexts env) ⟨.empty, []⟩ labels w)
    (positive : 1 ≤ maxAttempts) (steady : ∀ label ∈ labels, ¬ Interrupts label) (id : Uuid) :
    labels.countP (startsJob id) ≤ maxAttempts := by
  have valid := workers_valid positive ⟨labels, run⟩
  have jobs := valid.invariant.jobs
  obtain recorded | ⟨⟨t, member, holds⟩, recorded⟩ :=
    @Run.counted maxAttempts w labels id run positive steady
  · by_cases present : ∃ j ∈ w.committed.jobs, j.id = id
    · obtain ⟨j, hj, rfl⟩ := present
      rw [attemptsOf_member jobs.ids hj] at recorded
      exact recorded.trans (jobs.settled j hj).bounded
    · rw [attemptsOf_absent fun k hk same => present ⟨k, hk, same⟩] at recorded
      omega
  · obtain ⟨j, mine, rfl⟩ := holdsJob_iff.mp holds
    obtain ⟨hj, queued⟩ := (valid.holds t member).own j mine
    rw [attemptsOf_member jobs.ids hj] at recorded
    have waiting := (jobs.settled j hj).waiting queued
    omega

end Starts

/-! ### Passes that fail -/

/-- The attempt of a pass that has claimed a job is on record exactly if the server answers
none of the stage's statements with an error and the driver takes the text of what the
stage raises. In runs in which this is so and no worker is lost while it holds a job, no
job is started more often than the attempts allow. -/
theorem failures_recorded_iff (cfg : Settings) (env : JobEnv) (job : Job)
    (schedule : Nat → Moment Context Database Exc) :
    ((claimRun cfg env schedule).session = ⟨claimLog job env.now, false⟩ →
      (∀ n, Undisturbed job (stageRun cfg env schedule job).session.log
        ((stageRun cfg env schedule job).rest n)) →
      (Recorded cfg.jobMaxAttempts job (stageRun cfg env schedule job).result
          ((runOnce cfg env).run postgres schedule .fresh) ↔
        (processJob cfg env (job.claimed env.now)).Answered postgres
            (claimRun cfg env schedule).rest (claimRun cfg env schedule).session ∧
          ∀ e, (stageRun cfg env schedule job).result = .error e → hasNul e.message = false)) ∧
    ∀ maxAttempts, 1 ≤ maxAttempts → ∀ labels w,
      Run (workerSystem maxAttempts fun _ env => TakenTexts env) ⟨.empty, []⟩ labels w →
      (∀ label ∈ labels, ¬ Interrupts label) →
      ∀ id, labels.countP (startsJob id) ≤ maxAttempts :=
  ⟨fun claims quiet => recorded_iff claims quiet,
    fun _ positive _ _ run steady id => starts_bounded run positive steady id⟩

/-! The job of `registered`, once without a disturbance, and once while another worker
commits a document with the same bytes between the lookups of the ingest and its
`INSERT`. -/

def firstJob : Job := newJob 2 1 .ingest none 0

def undisturbed (_ : Nat) : Moment Context Database Exc := ⟨registered, ⟨registered, []⟩, none⟩

def sameDocument : Document :=
  ⟨21, 11, "https://example.com/pm", "hi", "hi", .markdown, 4, "postgres", [104, 105], "hi", none, 4⟩

/-- What the other worker has committed. -/
def ingestedMeanwhile : Database :=
  { registered with
    sources := registered.sources ++ [⟨11, "https://example.com/pm", 1⟩]
    documents := [sameDocument]
    jobs := registered.jobs ++ [(newJob 12 11 .ingest none 1).claimed 4 |>.succeed 4,
      newJob 22 11 .extract (some 21) 4] }

def overtaken (n : Nat) : Moment Context Database Exc :=
  if n < 4 then undisturbed n else ⟨ingestedMeanwhile, ⟨ingestedMeanwhile, []⟩, none⟩

theorem serve_registered : postgres.serve (claimSql 5 60) (undisturbed 0) .fresh =
    (.ok (some (firstJob.claimed 5)), ⟨claimLog firstJob 5, false⟩) :=
  serve_claim_single (by decide) (by decide) rfl

theorem claimRun_registered {schedule : Nat → Moment Context Database Exc}
    (first : schedule 0 = undisturbed 0) :
    (claimRun smallSettings smallEnv schedule).session = ⟨claimLog firstJob 5, false⟩ := by
  show (postgres.serve (claimSql 5 60) (schedule 0) .fresh).2 = _
  rw [first, serve_registered]

theorem ingestSource_small (now : Time) (sourceId : Uuid) (url : String) :
    ingestSource smallIngest now sourceId url = storeParsed smallIngest now sourceId
      ⟨"https://example.com/pm", some "text/markdown", [104, 105]⟩ .markdown ⟨none, "hi"⟩ := by
  have recognized : formatOfMediaType "text/markdown" = some .markdown := by
    rw [formatOfMediaType]
    simp only [lowerText_eq]
    decide
  exact ingestSource_eq now sourceId rfl
    (detectFormat_of_mediaType (by decide) recognized) (by rfl)

/-- The stage of the pass that claims the first job. -/
theorem stageRun_registered {schedule : Nat → Moment Context Database Exc}
    (first : schedule 0 = undisturbed 0) :
    stageRun smallSettings smallEnv schedule firstJob =
      ((Prog.execute (select [] fun d => d.sources.find? (·.id = 1))).bind fun source =>
        match source with
        | none => .raise ⟨.noResultFound, "No row was found when one was required", []⟩
        | some _ =>
            (storeParsed smallIngest 5 1 ⟨"https://example.com/pm", some "text/markdown",
              [104, 105]⟩ .markdown ⟨none, "hi"⟩).bind fun result =>
                (enqueue 4 5 1 .extract (some result.documentId)).bind fun _ =>
                  (.ret (.ok ()) : Db Unit)).run postgres
        (fun n => schedule (n + 1)) ⟨claimLog firstJob 5, false⟩ := by
  rw [stageRun, claimRun_registered first]
  show Prog.run _ (processIngest smallEnv (firstJob.claimed 5)) _ _ = _
  rw [processIngest]
  simp only [show smallEnv.ingest = smallIngest from rfl, ingestSource_small]
  rfl

/-- A pass that finds the page out of reach. -/
def unreachableEnv : JobEnv :=
  { smallEnv with ingest := { smallIngest with http := fun _ => .timeout "timed out" } }

/-- Undisturbed, the failure of the stage is marked. -/
theorem failures_recorded_registered :
    ∃ e, (stageRun smallSettings unreachableEnv undisturbed firstJob).result = .error e ∧
      Recorded 3 firstJob (.error e)
        ((runOnce smallSettings unreachableEnv).run postgres undisturbed .fresh) := by
  have claims : (claimRun smallSettings unreachableEnv undisturbed).session =
      ⟨claimLog firstJob 5, false⟩ := by
    show (postgres.serve (claimSql 5 60) (undisturbed 0) .fresh).2 = _
    rw [serve_registered]
  obtain ⟨e, failed, alive, log, rest, text⟩ : ∃ e,
      (stageRun smallSettings unreachableEnv undisturbed firstJob).result = .error e ∧
      (stageRun smallSettings unreachableEnv undisturbed firstJob).session.aborted = false ∧
      (stageRun smallSettings unreachableEnv undisturbed firstJob).session.log =
        claimLog firstJob 5 ∧
      (∀ n, (stageRun smallSettings unreachableEnv undisturbed firstJob).rest n = undisturbed n) ∧
      hasNul e.message = false := by
    rw [stageRun, claims]
    exact ⟨_, rfl, rfl, rfl, fun _ => rfl, by decide⟩
  have answered : (processJob smallSettings unreachableEnv (firstJob.claimed 5)).Answered postgres
      (claimRun smallSettings unreachableEnv undisturbed).rest
      (claimRun smallSettings unreachableEnv undisturbed).session := by
    rw [Prog.answered_iff _ (by rw [claims])]
    exact alive
  have quiet : ∀ n, Undisturbed firstJob
      (stageRun smallSettings unreachableEnv undisturbed firstJob).session.log
      ((stageRun smallSettings unreachableEnv undisturbed firstJob).rest n) := by
    have locked : firstJob ∈ registered.jobs := by decide
    have unique : Keyed Job.id registered.jobs := by
      rw [Keyed]
      decide
    intro n
    rw [log, rest]
    exact ⟨rfl, locked, unique, _, rfl⟩
  have law := ((failures_recorded_iff smallSettings unreachableEnv firstJob undisturbed).1
    claims quiet).mpr ⟨answered, fun raised same => by
      cases failed.symm.trans same
      exact text⟩
  rw [failed] at law
  exact ⟨e, failed, law⟩

/-- Overtaken, the pass raises and the attempt is gone. -/
theorem failures_unrecorded_overtaken :
    (claimRun smallSettings smallEnv overtaken).session = ⟨claimLog firstJob 5, false⟩ ∧
    (∀ n, Undisturbed firstJob (stageRun smallSettings smallEnv overtaken firstJob).session.log
      ((stageRun smallSettings smallEnv overtaken firstJob).rest n)) ∧
    ¬ Recorded 3 firstJob (stageRun smallSettings smallEnv overtaken firstJob).result
      ((runOnce smallSettings smallEnv).run postgres overtaken .fresh) := by
  have stage := @stageRun_registered overtaken rfl
  have quiet : ∀ n, Undisturbed firstJob
      (stageRun smallSettings smallEnv overtaken firstJob).session.log
      ((stageRun smallSettings smallEnv overtaken firstJob).rest n) := by
    rw [stage]
    have locked : firstJob ∈ ingestedMeanwhile.jobs := by decide
    have unique : Keyed Job.id ingestedMeanwhile.jobs := by
      rw [Keyed]
      decide
    exact fun n => ⟨rfl, locked, unique, _, rfl⟩
  refine ⟨@claimRun_registered overtaken rfl, quiet, fun recorded => ?_⟩
  obtain ⟨answered, _⟩ := (recorded_iff (@claimRun_registered overtaken rfl) quiet).mp recorded
  rw [Prog.answered_iff _ (by rw [@claimRun_registered overtaken rfl])] at answered
  have aborted : (stageRun smallSettings smallEnv overtaken firstJob).session.aborted = true := by
    rw [stage]
    rfl
  cases aborted.symm.trans answered

/-- A pass whose stage meets a server error leaves everything as it was, and the job is
started again. -/
theorem started_again : Run (workerSystem 3 fun _ _ => True) ⟨registered, []⟩
    [.began, .sent .fresh ⟨claimLog firstJob 5, false⟩,
      .sent ⟨claimLog firstJob 5, false⟩ ⟨claimLog firstJob 5, true⟩,
      .sent ⟨claimLog firstJob 5, true⟩ ⟨claimLog firstJob 5, true⟩,
      .raised ⟨claimLog firstJob 5, true⟩] ⟨registered, []⟩ := by
  have given : (workerSystem 3 fun _ _ => True).context
      (([] ++ [] : List (Txn Context Database RowOp Exc Reply)).map Txn.session)
        ⟨registered, []⟩ := by
    simp [workerSystem]
  have sends : ∀ {ρ : Type} {labels : List (Label RowOp)} {session : Session RowOp}
      {s : Sql ρ} {next : Except Exc ρ → Db Reply} (fault : Option Exc)
      {r : Except Exc ρ} {after : Session RowOp},
      postgres.serve s ⟨registered, ⟨registered, []⟩, fault⟩ session = (r, after) →
      Run (workerSystem 3 fun _ _ => True) ⟨registered, []⟩ labels
        ⟨registered, [⟨session, .stmt s next⟩]⟩ →
      Run (workerSystem 3 fun _ _ => True) ⟨registered, []⟩ (labels ++ [.sent session after])
        ⟨registered, [⟨after, next r⟩]⟩ := by
    intro ρ labels session s next fault r after served run
    have step := @Step.statement Context Database RowOp Exc Reply
      (workerSystem 3 fun _ _ => True) registered [] [] session _ s next _ ⟨registered, []⟩ given
        fault served.symm
    exact run.snoc step
  have program : WorkerProgram 3 (fun _ _ => True) ((runOnce smallSettings smallEnv).bind
      fun claimed => (.ret (.ok (.worked claimed)) : Db Reply)) := .run rfl trivial
  have begun := Run.refl.snoc (@Step.begin Context Database RowOp Exc Reply
    (workerSystem 3 fun _ _ => True) ⟨registered, []⟩ _ program)
  have claimed := sends none serve_registered begun
  have disturbed := sends (some (foreign "E" "")) rfl claimed
  have unmarked := sends none rfl disturbed
  exact unmarked.snoc (@Step.raise Context Database RowOp Exc Reply
    (workerSystem 3 fun _ _ => True) registered [] [] _ _)

/-- Server errors start a job any number of times. -/
theorem starts_unbounded (n : Nat) :
    ∃ labels, Run (workerSystem 3 fun _ _ => True) ⟨registered, []⟩ labels ⟨registered, []⟩ ∧
      (∀ s, .crashed s ∉ labels) ∧ labels.countP (startsJob 2) = n := by
  induction n with
  | zero => exact ⟨[], .refl, by simp, rfl⟩
  | succ n ih =>
      obtain ⟨labels, run, alive, starts⟩ := ih
      refine ⟨_, run.trans started_again, fun s => ?_, ?_⟩
      · simp [alive s]
      · rw [List.countP_append, starts]
        rfl

end IncidentPipeline
