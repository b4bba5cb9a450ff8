import IncidentPipeline.Foundation.Fibers
import IncidentPipeline.Migrations.FieldReviews
import IncidentPipeline.Review.Surface
import IncidentPipeline.Worker.Confidences
import IncidentPipeline.Worker.Progress

/-!
# The migration of what the pipeline has written

The confidences that `extract_document` stores have been validated: one score for each field of
the record, null where the model gave NaN. So revision 0008 takes whatever the service has come
to unless a row says NaN, and the rows that it writes are those that the service itself has
written, without what has happened to them since.
-/

namespace IncidentPipeline.Migration0008

open Fibers Pydantic Python Tables Transactions

/-! ### What an extraction stores -/

theorem keys_of_shapeFields {V : Type} {fields : List (FieldInfo V)} {members : Dict Json}
    (shape : Ty.Shape.ShapeFields fields members) : members.keys = fields.map FieldInfo.name := by
  induction fields generalizing members with
  | nil =>
      obtain rfl : members = [] := shape
      rfl
  | cons f rest ih =>
      obtain ⟨w, tail, rfl, _, _, later⟩ := shape
      exact congrArg (f.name :: ·) (ih later)

section Extraction

variable {rt : Runtime} {client : LLMClient} {maxAttempts : Nat} {documentText sourceUrl : String}
  {documentTitle : Option String} {result : ExtractionResult}

theorem confidence_keys
    (h : extract rt client maxAttempts documentText documentTitle sourceUrl = .ok result) :
    ∃ members : Dict Json, memberOf result.output "confidence" = .obj members ∧
      members.keys = recordFields := by
  obtain ⟨data, valid⟩ := extract_validated h
  have shape := Ty.shape_of_validate (validators_preserving rt) extractionOutput valid
  obtain ⟨_, same, record, _, rfl, _, _, confidence, _, rfl, scored, _, rfl⟩ := shape
  obtain ⟨fields, model, names, _⟩ := fieldConfidence_fields
  rw [model] at scored
  obtain ⟨members, rfl, shape⟩ := scored
  refine ⟨members, ?_, (keys_of_shapeFields shape).trans names⟩
  rw [same]
  rfl

theorem scored_of_extract
    (h : extract rt client maxAttempts documentText documentTitle sourceUrl = .ok result)
    (id : Uuid) (now : Time) (documentId : Uuid) (record : Json) :
    Scored (completeExtraction id now client documentId record
      (memberOf result.output "confidence") result.attempts) := by
  obtain ⟨members, stored, keys⟩ := confidence_keys h
  have filled := extract_filled h
  rw [stored] at filled ⊢
  have nodup : members.keys.Nodup := keys ▸ recordFields_nodup
  refine ⟨.of_eq ?_, fun c listed => ?_, rfl⟩
  · show ((members.map fun score => (score.1, dumpFloat score.2)).map Prod.fst) = recordFields
    rw [List.map_map]
    exact keys
  · obtain ⟨⟨field, score⟩, member, rfl⟩ := List.mem_map.mp listed
    obtain ⟨score', found, typed⟩ := (filled field (keys ▸ List.mem_map_of_mem member)).2
    obtain rfl := Option.some.inj ((Dict.get?_of_mem nodup member).symm.trans found)
    obtain ⟨q, rfl⟩ | rfl := typed
    · exact .inr ⟨q, rfl⟩
    · exact .inl rfl

end Extraction

/-! ### What the service writes -/

/-- An operation that stores a complete extraction stores confidences that go with the fields. -/
def StoresScored (o : RowOp) : Prop :=
  ∀ x, o = .insertExtraction x → x.status = .complete → Scored x

theorem extractDocument_storesScored {rt : Runtime} {ids : ExtractIds} {now : Time}
    {client : LLMClient} {maxAttempts : Nat} {documentId : Uuid} :
    (extractDocument rt ids now client maxAttempts documentId).Writes StoresScored := by
  refine extractDocument_writes_of fun doc o writes x same complete => ?_
  subst same
  cases extracted : extract rt client maxAttempts doc.text doc.title doc.sourceUrl with
  | error e =>
      rw [extracted] at writes
      obtain rfl : x = _ := writes
      cases complete
  | ok result =>
      rw [extracted] at writes
      obtain ⟨record, rfl⟩ := writes
      exact scored_of_extract extracted _ _ _ _

theorem serviceProgram_storesScored {maxAttempts : Nat} {p : Db Unit}
    (program : ServiceProgram maxAttempts p) : p.Writes StoresScored := by
  have revises : ∀ (d : Database) (o : RowOp), Revises d o → StoresScored o := by
    rintro d o ⟨before, after, rfl, _⟩ x same
    cases same
  cases program with
  | pipeline program =>
      refine Prog.writes_bind (workerProgram_writes program ?_ ?_) fun _ => trivial
      · exact fun o other x same => absurd same (other x)
      · exact fun _ _ _ _ _ _ => extractDocument_storesScored
  | decide => exact Prog.writes_bind (recordDecision_revises.writes revises) fun _ => trivial
  | route => exact Prog.writes_bind (routePending_revises.writes revises) fun _ => trivial
  | read reads => exact Prog.writes_bind (reads.mono fun _ => False.elim) fun _ => trivial

/-- At any moment of any run. -/
theorem service_scored {maxAttempts : Nat} {w : ServiceWorld}
    (reachable : Reachable (serviceSystem maxAttempts) Database.empty w) :
    ∀ x ∈ w.committed.extractions, x.status = .complete → Scored x := by
  obtain ⟨labels, run⟩ := reachable
  refine @Run.keeps_written _ _ _ _ _ StoresScored
    (fun d => ∀ x ∈ d.extractions, x.status = .complete → Scored x) (serviceSystem maxAttempts)
    labels w Database.empty (fun p => serviceProgram_storesScored) ⟨Database.empty, []⟩ ?_ run
    (by simp [Database.empty])
  intro o d d' stores written kept
  obtain ⟨_, rfl⟩ := RowOp.apply_eq_ok.mp written
  cases o with
  | insertExtraction row => exact forall_append kept (stores row rfl)
  | _ => exact kept

/-! ### The round trip -/

/-- What a review row says, and of which extraction. -/
def content (r : FieldReview) : Uuid × String × Json × Confidence := (r.extractionId, r.extracted)

/-- Two tables that agree on each extraction agree. -/
theorem content_perm {xs : List Extraction} {rows rows' : List FieldReview}
    (ids : Keyed Extraction.id xs) (known : ∀ r ∈ rows, ∃ x ∈ xs, x.id = r.extractionId)
    (known' : ∀ r ∈ rows', ∃ x ∈ xs, x.id = r.extractionId)
    (each : ∀ x ∈ xs, ((rows.filter (·.extractionId = x.id)).map FieldReview.extracted).Perm
      ((rows'.filter (·.extractionId = x.id)).map FieldReview.extracted)) :
    (rows.map content).Perm (rows'.map content) := by
  have whole : ∀ rs : List FieldReview, (∀ r ∈ rs, ∃ x ∈ xs, x.id = r.extractionId) →
      (rs.map content).Perm ((xs.map Extraction.id).flatMap fun id =>
        ((rs.filter (·.extractionId = id)).map FieldReview.extracted).map (Prod.mk id)) := by
    intro rs known
    have partition : Partition (fun id (r : FieldReview) => decide (r.extractionId = id))
        (xs.map Extraction.id) rs := by
      refine partition_of_index FieldReview.extractionId ids (fun r hr => ?_) fun r _ id _ => ?_
      · obtain ⟨x, member, same⟩ := known r hr
        exact same ▸ List.mem_map_of_mem member
      · simp [eq_comm]
    have parts := (flatMap_fibers_perm partition).symm.map content
    rw [List.map_flatMap] at parts
    refine parts.trans (.of_eq (List.flatMap_congr fun id _ => ?_))
    rw [fiber, List.map_map]
    refine List.map_congr_left fun r hr => ?_
    exact congrArg (·, r.extracted) (of_decide_eq_true (List.mem_filter.mp hr).2)
  refine (whole rows known).trans (.trans ?_ (whole rows' known').symm)
  refine List.Perm.flatMap_left _ fun id member => ?_
  obtain ⟨x, there, rfl⟩ := List.mem_map.mp member
  exact (each x there).map _

/-- Whatever the service has come to: without the review rows its tables can be migrated exactly
if no review row says NaN, and the migration brings back what the rows say of the extractions,
with no row routed or decided. -/
theorem upgrade_restores {maxAttempts : Nat} {w : ServiceWorld} (positive : 1 ≤ maxAttempts)
    (reachable : Reachable (serviceSystem maxAttempts) Database.empty w) (env : Environment) :
    ((∃ d, upgrade env (downgrade w.committed) = .ok d) ↔
        ∀ r ∈ w.committed.fieldReviews, r.confidence ≠ ⊤) ∧
      ∀ d, upgrade env (downgrade w.committed) = .ok d →
        downgrade d = downgrade w.committed ∧
        (d.fieldReviews.map content).Perm (w.committed.fieldReviews.map content) ∧
        LegalReviews d.fieldReviews ∧ ∀ row ∈ d.fieldReviews, row.Fresh := by
  have inv := (service_valid positive reachable).invariant
  have scored := service_scored reachable
  have stored : Stored (downgrade w.committed) :=
    ⟨inv.extracted.ids, fun x member complete =>
      (scored x member complete).fields.nodup_iff.mpr recordFields_nodup⟩
  obtain ⟨possible, result⟩ := @upgrade_reviews env _ stored
  refine ⟨possible.trans ⟨fun casts r hr none => ?_, fun numbers x member complete => ?_⟩,
    fun d done => ?_⟩
  · -- the extraction of the row asks for it
    obtain ⟨x, member, id⟩ := inv.references.reviewExtraction r hr
    have asked : r.extracted ∈ x.expected := by
      rw [← inv.extracted.rows x member]
      exact List.mem_map_of_mem (List.mem_filter.mpr ⟨hr, by simp [id]⟩)
    have complete : x.status = .complete := by
      cases status : x.status with
      | complete => rfl
      | failed => simp [Extraction.expected, status] at asked
    exact (casts_iff_expected complete (scored x member complete)).mp (casts x member complete) _
      asked none
  · refine (casts_iff_expected complete (scored x member complete)).mpr fun e expected => ?_
    rw [← inv.extracted.rows x member] at expected
    obtain ⟨r, hr, rfl⟩ := List.mem_map.mp expected
    exact numbers r (List.mem_filter.mp hr).1
  · obtain ⟨same, legal, fresh, rows⟩ := result d done
    refine ⟨same, ?_, legal, fun row member => (fresh row member).1⟩
    refine content_perm inv.extracted.ids (fun r hr => ?_) inv.references.reviewExtraction
      fun x member => ?_
    · obtain ⟨_, _, x, member, id, _⟩ := fresh r hr
      exact ⟨x, member, id⟩
    · rw [inv.extracted.rows x member]
      exact rows x member (scored x member)

/-- A server that keeps the order of the tables. -/
def inOrder : Environment where
  spelled _ := none
  arrange entries := entries
  arranges _ := .refl _
  ids n := 500 + n
  distinct := add_right_injective 500
  now := 8

theorem upgrade_restores_extracted :
    ∃ d, upgrade inOrder (downgrade extracted) = .ok d ∧
      d.fieldReviews.length = recordFields.length := by
  obtain ⟨possible, result⟩ := upgrade_restores (by decide) served_extracted inOrder
  obtain ⟨d, done⟩ := possible.mpr (by decide +kernel)
  obtain ⟨_, same, _⟩ := result d done
  have counted : d.fieldReviews.length = extracted.fieldReviews.length := by
    simpa using same.length_eq
  exact ⟨d, done, counted.trans rfl⟩

end IncidentPipeline.Migration0008
