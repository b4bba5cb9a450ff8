import IncidentPipeline.Worker.Interleavings

/-!
# The whole service

Beside registrations and workers, reviewers decide, routing passes are asked for, and
pages are read. Decisions and routing passes write new versions of review rows that are
there; the other requests write nothing. So each of them gives the workers what they
rely on, and what was shown of the committed tables holds of the whole service.
-/

namespace IncidentPipeline

open Python Tables Transactions

variable {maxAttempts : Nat} {d d' : Database}

/-! ### The programs -/

/-- What runs against the database. A request that reads is any program that writes
nothing. The replies are left out. -/
inductive ServiceProgram (maxAttempts : Nat) : Db Unit → Prop where
  | pipeline {p : Db Reply} (program : WorkerProgram maxAttempts (fun _ _ => True) p) :
      ServiceProgram maxAttempts (p.bind fun _ => .ret (.ok ()))
  | decide (rt : Runtime) (now : Time) (id : Uuid) (action : Action) (reviewer : Option String)
      (correctedValue : Json) (note : Option String) :
      ServiceProgram maxAttempts
        ((recordDecision rt now id action reviewer correctedValue note).bind fun _ => .ret (.ok ()))
  | route (collation : Collation) (now : Time) (floor : ℚ) (budget : Option Int) :
      ServiceProgram maxAttempts
        ((routePending collation now floor budget).bind fun _ => .ret (.ok ()))
  | read {ρ : Type} {p : Db ρ} (reads : p.Writes fun _ => False) :
      ServiceProgram maxAttempts (p.bind fun _ => .ret (.ok ()))

def serviceSystem (maxAttempts : Nat) : System Context Database RowOp Exc Unit where
  server := postgres
  context others context := ∀ id, id ∈ context.locked ↔ ∃ s ∈ others, ∃ j ∈ held s, j.id = id
  programs := ServiceProgram maxAttempts

/-! ### What the review requests send -/

theorem Revises.grow {o : RowOp} (revises : Revises d o) (grows : Grows d d') : Revises d' o := by
  obtain ⟨before, after, rfl, version, s, member, same⟩ := revises
  obtain ⟨t, there, again⟩ := grows.reviews s member
  exact ⟨before, after, rfl, version, t, there, again.trans same⟩

theorem revises_updates {id : Uuid} {texts : List String} {json : Option Json}
    {set : FieldReview → FieldReview} (version : ∀ r, (set r).origin = r.origin) :
    (Prog.execute (updateFieldReviewSql id texts json set) : Db Unit).WritesSeen Revises := by
  apply Prog.writesSeen_execute
  intro context d reply ops answer o ho
  simp only [updateFieldReviewSql] at answer
  split at answer <;> cases answer
  obtain ⟨r, member, rfl⟩ := List.mem_map.mp ho
  exact ⟨r, set r, rfl, version r, r, List.mem_of_mem_filter member, rfl⟩

theorem select_revises {ρ : Type} {texts : List String} {read : Database → ρ} :
    (Prog.execute (select texts read) : Db ρ).WritesSeen Revises :=
  Prog.Writes.seen (P := fun _ => False) writes_select fun _ _ => False.elim

theorem getFieldReview_revises {id : Uuid} : (getFieldReview id).WritesSeen Revises := by
  refine Prog.writesSeen_bind select_revises fun row => ?_
  cases row <;> exact trivial

/-- A decision writes new versions of the rows that it sees. -/
theorem recordDecision_revises {rt : Runtime} {now : Time} {id : Uuid} {action : Action}
    {reviewer : Option String} {correctedValue : Json} {note : Option String} :
    (recordDecision rt now id action reviewer correctedValue note).WritesSeen Revises := by
  have then_read : ∀ {texts : List String} {json : Option Json} {set : FieldReview → FieldReview},
      (∀ r, (set r).origin = r.origin) →
        ((Prog.execute (updateFieldReviewSql id texts json set)).bind fun _ =>
          getFieldReview id).WritesSeen Revises := fun version =>
    Prog.writesSeen_bind (revises_updates version) fun _ => getFieldReview_revises
  rw [recordDecision]
  refine Prog.writesSeen_bind getFieldReview_revises fun current => ?_
  split
  · exact trivial
  split
  · split
    · exact trivial
    · exact then_read fun _ => rfl
  · dsimp only
    split
    · exact trivial
    split
    · exact then_read fun _ => rfl
    · refine Prog.writesSeen_bind trivial fun value => ?_
      split
      · exact trivial
      · exact then_read fun _ => rfl

/-- So does a routing pass. -/
theorem routePending_revises {collation : Collation} {now : Time} {floor : ℚ}
    {budget : Option Int} : (routePending collation now floor budget).WritesSeen Revises := by
  have updates : ∀ limit : Option Nat,
      (Prog.execute (routeSql collation now floor limit)).WritesSeen Revises := by
    intro limit
    apply Prog.writesSeen_execute
    intro context d reply ops answer o ho
    cases answer
    obtain ⟨r, member, rfl⟩ := List.mem_map.mp ho
    exact ⟨r, r.route now, rfl, rfl, r, List.mem_of_mem_filter member, rfl⟩
  rw [routePending]
  split
  · exact trivial
  · refine Prog.writesSeen_bind select_revises fun _ => ?_
    refine Prog.writesSeen_bind select_revises fun eligible => ?_
    refine Prog.writesSeen_bind select_revises fun outstandingBefore => ?_
    dsimp only
    split
    · exact trivial
    · exact Prog.writesSeen_bind (updates _) fun _ => trivial

/-! ### What a transaction changes -/

/-- What a committed transaction leaves behind. -/
inductive ServiceChange (maxAttempts : Nat) (d : Database) : List Uuid → Database → Prop where
  | pipeline {touched : List Uuid} {d' : Database} (change : Change maxAttempts d touched d') :
      ServiceChange maxAttempts d touched d'
  | revised {reviews : List FieldReview}
      (kept : reviews.map FieldReview.origin = d.fieldReviews.map FieldReview.origin) :
      ServiceChange maxAttempts d [] { d with fieldReviews := reviews }

variable {touched : List Uuid}

/-- New versions of review rows keep the invariant. -/
theorem PipelineInvariant.revised (inv : PipelineInvariant maxAttempts d)
    {reviews : List FieldReview}
    (kept : reviews.map FieldReview.origin = d.fieldReviews.map FieldReview.origin) :
    PipelineInvariant maxAttempts { d with fieldReviews := reviews } := by
  obtain ⟨sources, jobs, refs, handover, extracted⟩ := inv
  refine ⟨sources, jobs, ⟨refs.jobSource, refs.jobDocument, refs.extractionDocument, ?_⟩,
    ⟨handover.balance, handover.targeted⟩,
    ⟨extracted.ids, extracted.identities, extracted.filled, extracted.table.of_origin kept, ?_⟩⟩
  · intro r hr
    obtain ⟨s, member, same⟩ := mem_of_origin kept hr
    obtain ⟨x, there, id⟩ := refs.reviewExtraction s member
    exact ⟨x, there, id.trans (congrArg (fun o => o.2.1) same)⟩
  · intro x hx
    exact (extracted_of_origin kept x.id).trans (extracted.rows x hx)

theorem ServiceChange.invariant (change : ServiceChange maxAttempts d touched d')
    (positive : 1 ≤ maxAttempts) (inv : PipelineInvariant maxAttempts d) :
    PipelineInvariant maxAttempts d' := by
  cases change with
  | pipeline change => exact change.invariant positive inv
  | revised kept => exact inv.revised kept

theorem ServiceChange.grows (change : ServiceChange maxAttempts d touched d')
    (ids : Keyed Job.id d.jobs) : Grows d d' := by
  cases change with
  | pipeline change => exact change.grows ids
  | revised kept =>
      refine ⟨fun s h => h, fun id h => h, fun j h _ => h, fun r h => ?_⟩
      exact mem_of_origin kept.symm h

theorem ServiceChange.keeps_job (change : ServiceChange maxAttempts d touched d') {j : Job}
    (member : j ∈ d.jobs) (other : j.id ∉ touched) : j ∈ d'.jobs := by
  cases change with
  | pipeline change => exact change.keeps_job member other
  | revised => exact member

/-- What a transaction that returns would change if it committed now. -/
def ServiceCommits (maxAttempts : Nat) (r : Except Exc Unit) (s : Session RowOp) (d : Database) :
    Prop :=
  s.aborted = false → r.toBool = true → ∀ d', postgres.replay s.log d = .ok d' →
    ServiceChange maxAttempts d ((held s).map Job.id) d'

/-! ### The programs against the protocol -/

theorem held_of_revises {s : Session RowOp}
    (revises : s.aborted = false → ∀ o ∈ s.log, Revises d o) : held s = [] := by
  cases aborted : s.aborted with
  | true => exact held_of_aborted aborted
  | false =>
      rw [held_of_alive aborted, List.filterMap_eq_nil_iff]
      intro o ho
      obtain ⟨before, after, rfl, _⟩ := revises aborted o ho
      rfl

/-- A program that revises what it sees has revised what is committed when it ends. -/
theorem wp_revises {α : Type} {p : Db α} {s : Session RowOp} (writes : p.WritesSeen Revises)
    (revises : s.aborted = false → ∀ o ∈ s.log, Revises d o) :
    p.wp postgres (jobProtocol maxAttempts)
      (fun _ st e => PipelineInvariant maxAttempts e ∧
        (st.aborted = false → ∀ o ∈ st.log, Revises e o)) s d := by
  induction p generalizing s d with
  | ret r => exact fun e rely inv _ => ⟨inv, fun alive o ho => (revises alive o ho).grow rely.1⟩
  | stmt q next ih =>
      intro e context fault rely inv own
      have now_ : s.aborted = false → ∀ o ∈ s.log, Revises e o := fun alive o ho =>
        (revises alive o ho).grow rely.1
      have holds : ∀ st : Session RowOp, (st.aborted = false → ∀ o ∈ st.log, Revises e o) →
          (jobProtocol maxAttempts).guarantee context s st ∧ Owns st e := by
        intro st sent
        refine ⟨fun j hj => ?_, fun j hj => ?_⟩ <;> rw [held_of_revises sent] at hj <;> cases hj
      suffices sent : (postgres.serve q ⟨e, context, fault⟩ s).2.aborted = false →
          ∀ o ∈ (postgres.serve q ⟨e, context, fault⟩ s).2.log, Revises e o from
        ⟨(holds _ sent).1, (holds _ sent).2, ih _ (writes.2 _) sent⟩
      obtain ⟨x, _, served⟩ | ⟨_, x, served⟩ |
          ⟨_, alive, _, visible, reply, more, finish, seen, answer, _, served⟩ :=
        postgres.serve_cases q ⟨e, context, fault⟩ s
      · rw [served]
        exact now_
      · rw [served]
        exact fun alive => by cases alive
      · rw [served]
        intro _ o ho
        obtain old | new := List.mem_append.mp ho
        · exact now_ alive o old
        · -- the statement sees the committed rows in the versions of its own transaction
          obtain ⟨reviews, rfl, kept⟩ := replay_revises inv.extracted.table (now_ alive) seen
          obtain ⟨before, after, rfl, version, r, member, same⟩ := writes.1 _ _ _ _ answer o new
          obtain ⟨t, there, again⟩ := mem_of_origin kept member
          exact ⟨before, after, rfl, version, t, there, again.trans same⟩

theorem revises_commits {α : Type} {p : Db α} (writes : p.WritesSeen Revises) :
    (p.bind fun _ => .ret (.ok ())).wp postgres (jobProtocol maxAttempts)
      (ServiceCommits maxAttempts) .fresh d := by
  refine Prog.wp_map (wp_revises writes (by simp)) ?_ fun _ _ _ _ _ done => by cases done
  rintro _ s e ⟨inv, revises⟩ alive _ d' replayed
  obtain ⟨reviews, rfl, kept⟩ := replay_revises inv.extracted.table (revises alive) replayed
  rw [held_of_revises revises]
  exact .revised kept

theorem serviceProgram_commits {p : Db Unit} (program : ServiceProgram maxAttempts p) :
    p.wp postgres (jobProtocol maxAttempts) (ServiceCommits maxAttempts) .fresh d := by
  cases program with
  | pipeline program =>
      refine Prog.wp_map (workerProgram_commits program) ?_ fun _ _ _ _ _ done => by cases done
      exact fun _ s e commits alive _ d' replayed => .pipeline (commits alive rfl d' replayed)
  | decide => exact revises_commits recordDecision_revises
  | route => exact revises_commits routePending_revises
  | read reads => exact revises_commits (reads.seen fun _ _ => False.elim)

/-! ### Every interleaving -/

theorem service_sound (positive : 1 ≤ maxAttempts) :
    Sound (serviceSystem maxAttempts) (jobProtocol maxAttempts) Separate
      (ServiceCommits maxAttempts) where
  symm := Separate.symm
  fresh s j hj := by cases hj
  keeps given guarantee separate := Separate.keeps given guarantee separate
  own_fresh inv j hj := by cases hj
  begins program inv := serviceProgram_commits program
  commits commits alive own inv replayed := (commits alive rfl _ replayed).invariant positive inv
  relies commits alive separate own inv replayed := by
    have change := commits alive rfl _ replayed
    exact ⟨change.grows inv.jobs.ids, fun j hj member =>
      change.keeps_job member (separate.not_touched hj)⟩

abbrev ServiceWorld := World Context Database RowOp Exc Unit

abbrev ServiceValid (maxAttempts : Nat) (w : ServiceWorld) : Prop :=
  (jobProtocol maxAttempts).Valid postgres Separate (ServiceCommits maxAttempts) w

variable {u v w : ServiceWorld} {label : Label RowOp} {labels : List (Label RowOp)}

theorem service_valid (positive : 1 ≤ maxAttempts)
    (reachable : Reachable (serviceSystem maxAttempts) Database.empty w) :
    ServiceValid maxAttempts w :=
  reachable.valid (service_sound positive) (pipelineInvariant_empty maxAttempts)

/-- A step commits a change, or it leaves the tables alone. -/
theorem Step.serviceChange (step : Step (serviceSystem maxAttempts) u label v)
    (valid : ServiceValid maxAttempts u) :
    v.committed = u.committed ∨
      ∃ touched, ServiceChange maxAttempts u.committed touched v.committed := by
  cases step with
  | @commit d d' before after session a alive applies =>
      exact .inr ⟨_, valid.finished.2 alive rfl d' applies⟩
  | «begin» => exact .inl rfl
  | statement => exact .inl rfl
  | raise => exact .inl rfl
  | crash => exact .inl rfl

end IncidentPipeline
