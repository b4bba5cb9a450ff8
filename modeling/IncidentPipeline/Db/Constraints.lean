import IncidentPipeline.Db.Tables
import IncidentPipeline.Foundation.Commits

/-!
# The constraints of the schema

Every row operation is checked as it is applied, and a commit applies the whole log
again. So the committed tables meet the constraints at any moment of any run, whatever
the programs are: nothing here depends on what the service does.
-/

namespace IncidentPipeline

open Tables Transactions

/-- The tables meet the constraints that the schema declares. -/
structure Constrained (d : Database) : Prop where
  sources : Keyed Source.id d.sources
  documents : DocumentTable d.documents
  jobs : Keyed Job.id d.jobs
  jobDocument : ∀ j ∈ d.jobs, j.kind = .extract ↔ j.documentId.isSome = true
  extractions : Keyed Extraction.id d.extractions
  records : ∀ x ∈ d.extractions, x.status = .complete ↔ x.record.isSome = true
  complete : d.extractions.Pairwise fun x y =>
    x.status = .complete → y.status = .complete → x.identity ≠ y.identity
  reviews : ReviewTable d.fieldReviews
  checked : ∀ r ∈ d.fieldReviews, r.Checked

theorem constrained_empty : Constrained Database.empty where
  sources := keyed_nil
  documents := documentTable_nil
  jobs := keyed_nil
  jobDocument := by simp [Database.empty]
  extractions := keyed_nil
  records := by simp [Database.empty]
  complete := List.Pairwise.nil
  reviews := reviewTable_nil
  checked := by simp [Database.empty]

variable {d d' : Database}

theorem Job.checks_iff {j : Job} {others : List Job} :
    (∀ check ∈ j.checks others, check.2 = true) ↔
      (∀ k ∈ others, k.id ≠ j.id) ∧ (j.kind = .extract ↔ j.documentId.isSome = true) := by
  simp only [Job.checks, List.forall_mem_cons, List.all_eq_true, decide_eq_true_eq,
    List.not_mem_nil, false_imp_iff, implies_true, and_true, ne_eq]

/-- What holds of the rows that stay and of the new version holds of the table. -/
theorem forall_replaceRow {α κ : Type} [DecidableEq κ] {key : α → κ} {id : κ} {after : α}
    {rows : List α} {P : α → Prop} (old : ∀ r ∈ rows, P r) (new : P after) :
    ∀ r ∈ replaceRow key id after rows, P r := by
  intro r hr
  obtain rfl | ⟨member, _⟩ := mem_replaceRow hr
  · exact new
  · exact old r member

theorem forall_append {α : Type} {rows : List α} {row : α} {P : α → Prop}
    (old : ∀ r ∈ rows, P r) (new : P row) : ∀ r ∈ rows ++ [row], P r := by
  simpa [or_imp, forall_and] using ⟨old, new⟩

/-- A row operation that violates nothing keeps the constraints. -/
theorem Constrained.apply (h : Constrained d) {o : RowOp} (written : postgres.apply o d = .ok d') :
    Constrained d' := by
  obtain ⟨checks, rfl⟩ := RowOp.apply_eq_ok.mp written
  cases o with
  | insertSource row =>
      refine { h with sources := h.sources.append ?_ }
      simpa [RowOp.checks] using checks
  | insertDocument row =>
      obtain ⟨id, content, text⟩ := Document.checks_ok.mp checks
      exact { h with
        documents := ⟨h.documents.ids.append id, h.documents.contents.append content,
          h.documents.texts.append text⟩ }
  | updateDocument before after =>
      obtain ⟨id, content, text⟩ := Document.checks_ok.mp checks
      exact { h with
        documents := ⟨h.documents.ids.replaceRow_others h.documents.ids id,
          h.documents.contents.replaceRow_others h.documents.ids content,
          h.documents.texts.replaceRow_others h.documents.ids text⟩ }
  | insertJob row =>
      obtain ⟨id, document⟩ := Job.checks_iff.mp checks
      exact { h with
        jobs := h.jobs.append id
        jobDocument := forall_append h.jobDocument document }
  | updateJob before after =>
      obtain ⟨id, document⟩ := Job.checks_iff.mp checks
      exact { h with
        jobs := h.jobs.replaceRow_others h.jobs id
        jobDocument := forall_replaceRow h.jobDocument document }
  | insertExtraction row =>
      obtain ⟨id, unique⟩ := Extraction.checks_ok checks
      have record : row.status = .complete ↔ row.record.isSome = true := by
        have check := checks _ (List.mem_cons_of_mem _ List.mem_cons_self)
        exact of_decide_eq_true check
      refine { h with
        extractions := h.extractions.append id
        records := forall_append h.records record
        complete := List.pairwise_append.mpr ⟨h.complete, List.pairwise_singleton _ _, ?_⟩ }
      intro x hx y hy first second
      obtain rfl := List.mem_singleton.mp hy
      exact unique second x hx first
  | insertFieldReview row =>
      obtain ⟨id, slot, checked⟩ := FieldReview.checks_ok.mp checks
      exact { h with
        reviews := ⟨h.reviews.ids.append id, h.reviews.slots.append slot⟩
        checked := forall_append h.checked checked }
  | updateFieldReview before after =>
      obtain ⟨id, slot, checked⟩ := FieldReview.checks_ok.mp checks
      exact { h with
        reviews := ⟨h.reviews.ids.replaceRow_others h.reviews.ids id,
          h.reviews.slots.replaceRow_others h.reviews.ids slot⟩
        checked := forall_replaceRow h.checked checked }

theorem Constrained.replay (h : Constrained d) {ops : List RowOp}
    (written : postgres.replay ops d = .ok d') : Constrained d' := by
  have each : ∀ {o : RowOp} {d d' : Database}, True → postgres.apply o d = .ok d' →
      Constrained d → Constrained d' := fun _ applied kept => kept.apply applied
  exact Server.replay_keeps each (fun _ _ => trivial) written h

section Runs

variable {α : Type} {sys : System Context Database RowOp Exc α}
  {u v w : World Context Database RowOp Exc α} {label : Label RowOp}

theorem Step.constrained (server : sys.server = postgres) (step : Step sys u label v)
    (h : Constrained u.committed) : Constrained v.committed := by
  cases step with
  | commit alive applies =>
      rw [server] at applies
      exact h.replay applies
  | «begin» => exact h
  | statement => exact h
  | raise => exact h
  | crash => exact h

/-- The committed tables meet the constraints at any moment of any run. -/
theorem Reachable.constrained (server : sys.server = postgres) (start : Constrained d)
    (reachable : Reachable sys d w) : Constrained w.committed := by
  obtain ⟨labels, run⟩ := reachable
  exact run.induction start fun step h => Step.constrained server step h

end Runs

end IncidentPipeline
