import IncidentPipeline.Worker.Protocol

/-!
# What the stages send

The row operations of a stage, statement by statement, whatever the other transactions
commit in between, and the change they amount to when they are applied at the commit.
-/

namespace IncidentPipeline

open Python Tables Transactions

/-! ### Row operations of a stage -/

/-- The row operations of an ingest, up to the job that it enqueues. -/
inductive DocumentLog (d : Database) : Uuid → List RowOp → Prop where
  | known {id : Uuid} {ops : List RowOp} (found : HasDocument d id)
      (updates : ∀ o ∈ ops, ∃ before after, o = .updateDocument before after ∧
        after.id = before.id) : DocumentLog d id ops
  | new (row : Document) : DocumentLog d row.id [.insertDocument row]

/-- The row operations of a stage, by how it ended. -/
inductive StageLog (job : Job) (d : Database) : Except Exc Unit → List RowOp → Prop where
  | nothing (e : Exc) : StageLog job d (.error e) []
  | failed {x : Extraction} (e : Exc) (kind : job.kind = .extract)
      (document : HasDocument d x.documentId) (status : x.status = .failed) :
      StageLog job d (.error e) [.insertExtraction x]
  | ingested {ops : List RowOp} {documentId : Uuid} (jobId : Uuid) (now : Time)
      (kind : job.kind = .ingest) (document : DocumentLog d documentId ops) :
      StageLog job d (.ok ())
        (ops ++ [.insertJob (newJob jobId job.sourceId .extract (some documentId) now)])
  | duplicate (kind : job.kind = .extract) : StageLog job d (.ok ()) []
  | extracted {x : Extraction} {rows : List FieldReview} {routes : List RowOp}
      (kind : job.kind = .extract) (document : HasDocument d x.documentId)
      (status : x.status = .complete) (filled : x.Filled)
      (created : rows.map FieldReview.extracted = x.expected)
      (owned : ∀ r ∈ rows, r.extractionId = x.id)
      (routed : ∀ o ∈ routes, ∃ r now, o = .updateFieldReview r (r.route now) ∧
        ∃ s ∈ d.fieldReviews ++ rows, s.origin = r.origin) :
      StageLog job d (.ok ())
        (.insertExtraction x :: (rows.map .insertFieldReview ++ routes))

variable {d d' : Database} {job : Job} {result : Except Exc Unit} {ops : List RowOp}

theorem DocumentLog.grow {id : Uuid} (log : DocumentLog d id ops) (grows : Grows d d') :
    DocumentLog d' id ops := by
  cases log with
  | known found updates => exact .known (grows.documents id found) updates
  | new row => exact .new row

/-- The updates of a routing pass, each of a row that is there. -/
def Routes (rows : List FieldReview) (d : Database) (routes : List RowOp) : Prop :=
  ∀ o ∈ routes, ∃ r now, o = .updateFieldReview r (r.route now) ∧
    ∃ s ∈ d.fieldReviews ++ rows, s.origin = r.origin

theorem Routes.grow {rows : List FieldReview} {d' : Database} {routes : List RowOp}
    (routed : Routes rows d routes) (grows : Grows d d') : Routes rows d' routes := by
  intro o ho
  obtain ⟨r, now, rfl, s, member, same⟩ := routed o ho
  refine ⟨r, now, rfl, ?_⟩
  obtain old | new := List.mem_append.mp member
  · obtain ⟨t, ht, again⟩ := grows.reviews s old
    exact ⟨t, List.mem_append_left _ ht, again.trans same⟩
  · exact ⟨s, List.mem_append_right _ new, same⟩

/-- What a stage has sent stays good while the others commit. -/
theorem StageLog.grow (log : StageLog job d result ops) (grows : Grows d d') :
    StageLog job d' result ops := by
  cases log with
  | nothing e => exact .nothing e
  | failed e kind document status => exact .failed e kind (grows.documents _ document) status
  | ingested jobId now kind document => exact .ingested jobId now kind (document.grow grows)
  | duplicate kind => exact .duplicate kind
  | extracted kind document status filled created owned routed =>
      exact .extracted kind (grows.documents _ document) status filled created owned
        (Routes.grow routed grows)

/-- A stage claims nothing. -/
theorem StageLog.quiet (log : StageLog job d result ops) : ∀ o ∈ ops, claimOf o = none := by
  intro o ho
  cases log with
  | nothing => cases ho
  | duplicate => cases ho
  | failed => rw [List.mem_singleton.mp ho]; rfl
  | ingested jobId now kind document =>
      obtain early | last := List.mem_append.mp ho
      · cases document with
        | known found updates =>
            obtain ⟨before, after, rfl, _⟩ := updates o early
            rfl
        | new row => rw [List.mem_singleton.mp early]; rfl
      · rw [List.mem_singleton.mp last]; rfl
  | extracted kind document status filled created owned routed =>
      obtain rfl | later := List.mem_cons.mp ho
      · rfl
      · obtain inserted | route := List.mem_append.mp later
        · obtain ⟨row, _, rfl⟩ := List.mem_map.mp inserted
          rfl
        · obtain ⟨r, now, rfl, _⟩ := routed o route
          rfl

/-! ### From the row operations to the change -/

/-- Updates of documents keep their identifiers. -/
theorem replay_updateDocuments
    (updates : ∀ o ∈ ops, ∃ before after, o = .updateDocument before after ∧ after.id = before.id)
    (replayed : postgres.replay ops d = .ok d') :
    ∃ documents, d' = { d with documents := documents } ∧
      documents.map Document.id = d.documents.map Document.id := by
  induction ops generalizing d with
  | nil =>
      rw [Server.replay_nil, Except.ok.injEq] at replayed
      exact ⟨d.documents, replayed.symm, rfl⟩
  | cons o rest ih =>
      obtain ⟨before, after, rfl, same⟩ := updates o List.mem_cons_self
      obtain ⟨middle, first, later⟩ := Server.replay_cons_ok.mp replayed
      obtain ⟨_, rfl⟩ := RowOp.apply_eq_ok.mp first
      obtain ⟨documents, rfl, ids⟩ := ih (fun o ho => updates o (List.mem_cons_of_mem _ ho)) later
      refine ⟨documents, rfl, ids.trans ?_⟩
      exact replaceRow_keys same

/-- A new version of a review row that is there, with the same origin. -/
def Revises (d : Database) (o : RowOp) : Prop :=
  ∃ before after, o = .updateFieldReview before after ∧ after.origin = before.origin ∧
    ∃ s ∈ d.fieldReviews, s.origin = before.origin

/-- New versions keep the origins of the rows. -/
theorem replay_revises (table : ReviewTable d.fieldReviews) (revises : ∀ o ∈ ops, Revises d o)
    (replayed : postgres.replay ops d = .ok d') :
    ∃ reviews, d' = { d with fieldReviews := reviews } ∧
      reviews.map FieldReview.origin = d.fieldReviews.map FieldReview.origin := by
  induction ops generalizing d with
  | nil =>
      rw [Server.replay_nil, Except.ok.injEq] at replayed
      exact ⟨d.fieldReviews, replayed.symm, rfl⟩
  | cons o rest ih =>
      obtain ⟨r, after, rfl, version, s, member, same⟩ := revises o List.mem_cons_self
      obtain ⟨middle, first, later⟩ := Server.replay_cons_ok.mp replayed
      obtain ⟨_, rfl⟩ := RowOp.apply_eq_ok.mp first
      have id : r.id = s.id := (congrArg (fun o => o.1) same).symm
      have kept : (replaceRow FieldReview.id r.id after d.fieldReviews).map FieldReview.origin =
          d.fieldReviews.map FieldReview.origin := by
        rw [id]
        exact table.ids.map_replaceRow member (version.trans same.symm)
      obtain ⟨reviews, rfl, origins⟩ := ih (table.of_origin kept) (by
        intro o ho
        obtain ⟨t, later, rfl, version, u, hu, origin⟩ := revises o (List.mem_cons_of_mem _ ho)
        obtain ⟨v, hv, again⟩ := mem_of_origin kept.symm hu
        exact ⟨t, later, rfl, version, v, hv, again.trans origin⟩) later
      exact ⟨reviews, rfl, origins.trans kept⟩

/-- The operations of a stage amount to its change. They are applied to the tables in
which the job is claimed, `jobs₁`; the change is the same whatever version of the job
the table has. -/
theorem StageLog.change (log : StageLog job d result ops) (table : ReviewTable d.fieldReviews)
    {jobs₁ : List Job} (replayed : postgres.replay ops { d with jobs := jobs₁ } = .ok d') :
    ∃ new, d'.jobs = jobs₁ ++ new ∧ (∀ j ∈ new, ∀ k ∈ jobs₁, k.id ≠ j.id) ∧
      ∀ jobs₂ : List Job, jobs₂.map Job.id = jobs₁.map Job.id →
        StageChange job result { d with jobs := jobs₂ } { d' with jobs := jobs₂ ++ new } := by
  have moved : ∀ {jobs₂ : List Job} {id : Uuid}, jobs₂.map Job.id = jobs₁.map Job.id →
      (∀ k ∈ jobs₁, k.id ≠ id) → ∀ k ∈ jobs₂, k.id ≠ id := by
    intro jobs₂ id same fresh k hk equal
    have member := List.mem_map_of_mem (f := Job.id) hk
    rw [same] at member
    obtain ⟨i, hi, again⟩ := List.mem_map.mp member
    exact fresh i hi (again.trans equal)
  cases log with
  | nothing e =>
      rw [Server.replay_nil, Except.ok.injEq] at replayed
      subst replayed
      refine ⟨[], (List.append_nil _).symm, by simp, fun jobs₂ _ => ?_⟩
      rw [List.append_nil]
      exact .nothing e
  | duplicate kind =>
      rw [Server.replay_nil, Except.ok.injEq] at replayed
      subst replayed
      refine ⟨[], (List.append_nil _).symm, by simp, fun jobs₂ _ => ?_⟩
      rw [List.append_nil]
      exact .duplicate kind
  | failed e kind document status =>
      obtain ⟨checks, rfl⟩ := replay_singleton.mp replayed
      refine ⟨[], (List.append_nil _).symm, by simp, fun jobs₂ _ => ?_⟩
      rw [List.append_nil]
      exact .failed e kind document status (Extraction.checks_ok checks).1
  | @ingested early documentId jobId now kind document =>
      obtain ⟨middle, updated, inserted⟩ := Server.replay_append_ok.mp replayed
      obtain ⟨checks, rfl⟩ := replay_singleton.mp inserted
      cases document with
      | known found updates =>
          obtain ⟨documents, rfl, ids⟩ := replay_updateDocuments updates updated
          refine ⟨[_], rfl, ?_, fun jobs₂ same => ?_⟩
          · rintro j hj
            exact List.mem_singleton.mp hj ▸ Job.checks_ok checks
          · exact .known now kind found ids (moved same (Job.checks_ok checks))
      | new row =>
          obtain ⟨_, rfl⟩ := replay_singleton.mp updated
          refine ⟨[_], rfl, ?_, fun jobs₂ same => ?_⟩
          · rintro j hj
            exact List.mem_singleton.mp hj ▸ Job.checks_ok checks
          · exact .ingested now kind (moved same (Job.checks_ok checks))
  | @extracted x rows routes kind document status filled created owned routed =>
      obtain ⟨inserted, first, later⟩ := Server.replay_cons_ok.mp replayed
      obtain ⟨checks, rfl⟩ := RowOp.apply_eq_ok.mp first
      obtain ⟨reviewed, rowsIn, routedIn⟩ := Server.replay_append_ok.mp later
      obtain ⟨rfl, extended⟩ := replay_insertFieldReviews (by exact table) rowsIn
      have revises : ∀ o ∈ routes, Revises { d with
          jobs := jobs₁
          extractions := d.extractions ++ [x]
          fieldReviews := d.fieldReviews ++ rows } o := by
        intro o ho
        obtain ⟨r, now, rfl, there⟩ := routed o ho
        exact ⟨r, r.route now, rfl, rfl, there⟩
      obtain ⟨reviews, rfl, kept⟩ := replay_revises extended revises routedIn
      obtain ⟨fresh, unique⟩ := Extraction.checks_ok checks
      refine ⟨[], (List.append_nil _).symm, by simp, fun jobs₂ _ => ?_⟩
      rw [List.append_nil]
      exact .extracted kind document status filled fresh (unique status) created owned extended kept

/-- A claim, the operations of a stage and the mark amount to a change of the tables. -/
theorem StageLog.work {maxAttempts : Nat} {claimedAt now : Time}
    (log : StageLog job d result ops) (inv : PipelineInvariant maxAttempts d)
    (member : job ∈ d.jobs) (queued : job.status = .queued)
    (replayed : postgres.replay ([.updateJob job (job.claimed claimedAt)] ++ ops ++
      [.updateJob (job.claimed claimedAt)
        ((job.claimed claimedAt).ended maxAttempts now result)]) d = .ok d') :
    Change maxAttempts d [job.id] d' := by
  obtain ⟨d₂, early, marked⟩ := Server.replay_append_ok.mp replayed
  obtain ⟨d₁, claimed, staged⟩ := Server.replay_append_ok.mp early
  obtain ⟨_, rfl⟩ := replay_singleton.mp claimed
  obtain ⟨_, rfl⟩ := replay_singleton.mp marked
  obtain ⟨new, jobs, fresh, change⟩ := log.change inv.extracted.table staged
  refine @Change.work maxAttempts d job claimedAt now result _ member queued ?_
  generalize version : (job.claimed claimedAt).ended maxAttempts now result = last
  have key : last.id = job.id := by
    rw [← version, Job.ended_id, Job.claimed_id]
  have absent : ∀ j ∈ new, j.id ≠ job.id := by
    intro j hj same
    exact fresh j hj _ (after_mem_replaceRow member rfl) same.symm
  have written : replaceRow Job.id (job.claimed claimedAt).id last d₂.jobs =
      replaceRow Job.id job.id last d.jobs ++ new := by
    rw [jobs, Job.claimed_id, replaceRow_append, replaceRow_of_absent absent,
      replaceRow_replaceRow (job.claimed_id claimedAt)]
  have ids : (replaceRow Job.id job.id last d.jobs).map Job.id =
      (replaceRow Job.id job.id (job.claimed claimedAt) d.jobs).map Job.id := by
    rw [replaceRow_keys key, replaceRow_keys (job.claimed_id claimedAt)]
  have done := change _ ids
  rw [← written] at done
  exact done

end IncidentPipeline
