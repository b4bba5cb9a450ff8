import IncidentPipeline.Db.Constraints
import IncidentPipeline.Review.Presentation
import IncidentPipeline.Review.UntouchedForm
import IncidentPipeline.Worker.Service

/-!
# What the review surface relies on

The joins of the review queries lose no row and repeat none, the rows meet the constraints of
their table, and every row is about a field that a form can be made for. The schema alone
promises the second only. The whole service keeps all three, whatever runs beside it.
-/

namespace IncidentPipeline

open Python Tables Transactions

structure Reviewable (d : Database) : Prop where
  joined : Joined d
  legal : LegalReviews d.fieldReviews
  fields : ∀ r ∈ d.fieldReviews, r.field ∈ recordFields

/-- An extraction is expected to have rows for the fields of the record only. -/
theorem Extraction.expected_fields (x : Extraction) :
    ∀ row ∈ x.expected, row.1 ∈ recordFields := by
  intro row hrow
  rw [Extraction.expected] at hrow
  cases status : x.status with
  | failed => simp [status] at hrow
  | complete =>
      simp only [status, List.mem_map] at hrow
      obtain ⟨field, known, rfl⟩ := hrow
      exact known

section Reached

variable {maxAttempts : Nat} {d : Database} {v w : ServiceWorld}
  {labels : List (Label RowOp)}

theorem PipelineInvariant.fields (inv : PipelineInvariant maxAttempts d) :
    ∀ r ∈ d.fieldReviews, r.field ∈ recordFields := by
  intro r hr
  obtain ⟨x, hx, same⟩ := inv.references.reviewExtraction r hr
  apply x.expected_fields r.extracted
  rw [← inv.extracted.rows x hx]
  exact List.mem_map_of_mem (List.mem_filter.mpr ⟨hr, by simp [same]⟩)

/-- Reviewers never meet tables that their surface cannot show. -/
theorem service_reviewable (positive : 1 ≤ maxAttempts)
    (reachable : Reachable (serviceSystem maxAttempts) Database.empty w) :
    Reviewable w.committed := by
  have inv := (service_valid positive reachable).invariant
  have constrained := Reachable.constrained rfl constrained_empty reachable
  have refs := inv.references
  exact
    { joined := ⟨inv.extracted.ids, constrained.documents.ids, refs.reviewExtraction,
        refs.extractionDocument⟩
      legal := ⟨constrained.reviews, constrained.checked⟩
      fields := inv.fields }

/-- What is referred to stays, over whole runs. -/
theorem service_grows (positive : 1 ≤ maxAttempts)
    (reachable : Reachable (serviceSystem maxAttempts) Database.empty v)
    (run : Run (serviceSystem maxAttempts) v labels w) : Grows v.committed w.committed := by
  have valid := service_valid positive reachable
  suffices both : ServiceValid maxAttempts w ∧ Grows v.committed w.committed from both.2
  apply run.induction ⟨valid, Grows.refl _⟩
  rintro a label b step ⟨valid, grown⟩
  refine ⟨step.preserves (service_sound positive) valid, ?_⟩
  obtain unchanged | ⟨touched, change⟩ := Step.serviceChange step valid
  · rw [unchanged]
    exact grown
  · exact grown.trans (change.grows valid.invariant.jobs.ids)

/-- A row is about one field for ever. -/
theorem service_keeps_field (positive : 1 ≤ maxAttempts)
    (reachable : Reachable (serviceSystem maxAttempts) Database.empty v)
    (run : Run (serviceSystem maxAttempts) v labels w) {r s : FieldReview}
    (before : r ∈ v.committed.fieldReviews) (after : s ∈ w.committed.fieldReviews)
    (same : s.id = r.id) : s.field = r.field := by
  obtain ⟨t, there, origin⟩ := (service_grows positive reachable run).reviews r before
  simp only [FieldReview.origin, Prod.mk.injEq] at origin
  have ids := (service_reviewable positive (reachable.run run)).legal.table.ids
  obtain rfl : s = t := ids.eq_of_key after there (same.trans origin.1.symm)
  exact origin.2.2.1

end Reached

/-! ### One row -/

section Rows

variable {d : Database}

/-- The row that is joined under an identifier. -/
theorem joinedReviews_find (joined : Joined d) (id : Uuid) :
    ((joinedReviews d).find? (·.review.id = id)).map JoinedReview.review =
      d.fieldReviews.find? (·.id = id) := by
  rw [← joined.joinedReviews, List.find?_map]
  rfl

/-- What `load_for_review` finds. -/
def loaded (id : Uuid) (d : Database) : Except Exc ReviewItem :=
  match (joinedReviews d).find? (·.review.id = id) with
  | none => .error (fieldReviewNotFound id)
  | some row => .ok row.item

theorem loadForReview_serial (context : Context) (id : Uuid) (d : Database) :
    (loadForReview id).serial postgres context ⟨d, false⟩ = (loaded id d, ⟨d, false⟩) := by
  rw [loadForReview, Prog.bind_eq, Prog.serial_bind, serial_select, loaded]
  cases (joinedReviews d).find? (·.review.id = id) <;> rfl

/-- Every row has a form. -/
theorem Reviewable.formSpec (reviewable : Reviewable d) (rt : Runtime) {r : FieldReview}
    (member : r ∈ d.fieldReviews) : ∃ spec, formSpec rt r.field = .ok spec := by
  obtain ⟨_, _, _, _, spec, built, _⟩ := formSpec_of_mem rt (reviewable.fields r member)
  exact ⟨spec, built⟩

end Rows

end IncidentPipeline
