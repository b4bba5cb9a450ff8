import IncidentPipeline.Review.Decisions
import IncidentPipeline.Review.Surface

/-!
# The decisions as a ledger

Passes and decisions make new versions of rows. A row that has been decided stays as it is, so
the decided rows only become more: by the one that a decision decides, and by none in a skip or
a pass.
-/

namespace IncidentPipeline

open Tables Transactions

variable {d d' : Database} {call : ReviewCall} {own : List Uuid} {id : Uuid}

/-- The rows that have been decided. -/
def decidedIds (d : Database) : List Uuid :=
  (d.fieldReviews.filter (·.reviewState = .reviewed)).map FieldReview.id

theorem mem_decidedIds : id ∈ decidedIds d ↔
    ∃ r ∈ d.fieldReviews, r.reviewState = .reviewed ∧ r.id = id := by
  simp [decidedIds, and_assoc]

theorem decidedIds_nodup (legal : LegalReviews d.fieldReviews) : (decidedIds d).Nodup :=
  legal.table.ids.sublist (List.filter_sublist.map _)

/-- No score is NaN. -/
def Numbers (d : Database) : Prop := ∀ r ∈ d.fieldReviews, r.confidence ≠ ⊤

/-! ### Calls that insert nothing -/

/-- A decision or a pass makes new versions of rows of its own. -/
structure Versions (call : ReviewCall) (own : List Uuid) (d d' : Database) : Prop where
  legal : LegalReviews d'.fieldReviews
  tables : d' = { d with fieldReviews := d'.fieldReviews }
  old : ∀ r ∈ d.fieldReviews, r.id ∉ own → r ∈ d'.fieldReviews
  new : ∀ s ∈ d'.fieldReviews, s ∈ d.fieldReviews ∨
    ∃ r ∈ d.fieldReviews, r.id ∈ own ∧ call.Does r s
  own : ∀ id ∈ own, ∃ r ∈ d.fieldReviews, r.id = id ∧ ∃ s ∈ d'.fieldReviews, call.Does r s

theorem versions_of_effect (effect : Effect call own d d') (legal : LegalReviews d.fieldReviews)
    (creates : call.creates = false) : Versions call own d d' := by
  have inserts : ∀ s, ¬ call.Inserts s := by
    intro s inserted
    cases call with
    | create => cases creates
    | route => exact inserted
    | decide => exact inserted
  refine ⟨effect.legal legal, effect.tables, fun r hr other => (effect.frame other).mpr hr, ?_, ?_⟩
  · obtain ⟨f, new, rfl, changed, inserted, _⟩ := effect.changed
    intro s hs
    obtain old | fresh := List.mem_append.mp hs
    · obtain ⟨r, hr, rfl⟩ := List.mem_map.mp old
      obtain same | ⟨mine, does⟩ := changed r hr
      · exact .inl (same.symm ▸ hr)
      · exact .inr ⟨r, hr, mine, does⟩
    · exact absurd (inserted s fresh).2 (inserts s)
  · obtain ⟨f, new, rfl, _, inserted, owned⟩ := effect.changed
    intro id hid
    obtain ⟨r, hr, same, does⟩ | ⟨s, hs, _⟩ := owned id hid
    · exact ⟨r, hr, same, f r, List.mem_append_left _ (List.mem_map_of_mem hr), does⟩
    · exact absurd (inserted s hs).2 (inserts s)

namespace Versions

variable (versions : Versions call own d d')

include versions in
/-- A decided row stays as it is. -/
theorem keeps_decided {r : FieldReview} (legal : LegalReviews d.fieldReviews)
    (member : r ∈ d.fieldReviews) (decided : r.reviewState = .reviewed) :
    r ∈ d'.fieldReviews := by
  by_cases mine : r.id ∈ own
  · obtain ⟨s, hs, same, t, _, does⟩ := versions.own r.id mine
    obtain rfl := legal.table.ids.eq_of_key hs member same
    exact absurd decided does.open_
  · exact versions.old r member mine

include versions in
theorem confidences : ∀ s ∈ d'.fieldReviews, ∃ r ∈ d.fieldReviews, s.confidence = r.confidence := by
  intro s hs
  obtain old | ⟨r, hr, _, does⟩ := versions.new s hs
  · exact ⟨s, old, rfl⟩
  · exact ⟨r, hr, does.sameOrigin.confidence⟩

include versions in
theorem reviewable (reviewable : Reviewable d) : Reviewable d' := by
  have origin : ∀ s ∈ d'.fieldReviews, ∃ r ∈ d.fieldReviews,
      s.extractionId = r.extractionId ∧ s.field = r.field := by
    intro s hs
    obtain old | ⟨r, hr, _, does⟩ := versions.new s hs
    · exact ⟨s, old, rfl, rfl⟩
    · exact ⟨r, hr, does.sameOrigin.extractionId, does.sameOrigin.field⟩
  have legal := versions.legal
  have tables := versions.tables
  generalize d'.fieldReviews = reviews at origin legal tables
  subst tables
  obtain ⟨⟨extractions, documents, extractionOf, documentOf⟩, _, fields⟩ := reviewable
  refine ⟨⟨extractions, documents, fun s hs => ?_, documentOf⟩, legal, fun s hs => ?_⟩
  · obtain ⟨r, hr, same, _⟩ := origin s hs
    exact same.symm ▸ extractionOf r hr
  · obtain ⟨r, hr, _, same⟩ := origin s hs
    exact same.symm ▸ fields r hr

include versions in
/-- A skip or a pass decides nothing. -/
theorem ledger_of_quiet (legal : LegalReviews d.fieldReviews)
    (quiet : ∀ {r s}, call.Does r s → s.reviewState ≠ .reviewed) :
    (decidedIds d').Perm (decidedIds d) := by
  rw [List.perm_ext_iff_of_nodup (decidedIds_nodup versions.legal) (decidedIds_nodup legal)]
  intro id
  rw [mem_decidedIds, mem_decidedIds]
  constructor
  · rintro ⟨s, hs, decided, same⟩
    obtain old | ⟨r, _, _, does⟩ := versions.new s hs
    · exact ⟨s, old, decided, same⟩
    · exact absurd decided (quiet does)
  · rintro ⟨r, hr, decided, same⟩
    exact ⟨r, versions.keeps_decided legal hr decided, decided, same⟩

end Versions

theorem ledger_of_decision (versions : Versions call [id] d d')
    (legal : LegalReviews d.fieldReviews) (decides : call.decidesOn id = true) :
    (decidedIds d').Perm (decidedIds d ++ [id]) := by
  obtain ⟨r, hr, key, s, hs, does⟩ := versions.own id (by simp)
  obtain ⟨open_, decided⟩ := does.decided decides
  have fresh : id ∉ decidedIds d := by
    rw [mem_decidedIds]
    rintro ⟨t, ht, closed, same⟩
    obtain rfl := legal.table.ids.eq_of_key ht hr (same.trans key.symm)
    exact open_ closed
  have nodup : (decidedIds d ++ [id]).Nodup :=
    List.Nodup.append (decidedIds_nodup legal) (List.nodup_singleton id) (by simpa using fresh)
  rw [List.perm_ext_iff_of_nodup (decidedIds_nodup versions.legal) nodup]
  intro x
  rw [List.mem_append, List.mem_singleton, mem_decidedIds, mem_decidedIds]
  constructor
  · rintro ⟨t, ht, closed, same⟩
    obtain old | ⟨u, _, mine, does'⟩ := versions.new t ht
    · exact .inl ⟨t, old, closed, same⟩
    · exact .inr (same.symm.trans (does'.sameOrigin.id.trans (List.mem_singleton.mp mine)))
  · rintro (⟨t, ht, closed, same⟩ | rfl)
    · exact ⟨t, versions.keeps_decided legal ht closed, closed, same⟩
    · exact ⟨s, hs, decided, does.sameOrigin.id.trans key⟩

/-- The decision that an input asks for, once it is made. -/
theorem versions_of_outcome {input : DecisionInput} {next : FieldReview}
    (legal : LegalReviews d.fieldReviews) (made : input.outcome id d = .ok (next, d')) :
    Versions (input.reviewCall id) [id] d d' := by
  have ran : (input.reviewCall id).run ⟨d, []⟩ d = (.ok [id], d') :=
    DecisionInput.run_of_outcome legal made
  obtain ⟨e, raised⟩ | ⟨own, returned, effect⟩ := (input.reviewCall id).run_cases ⟨d, []⟩ legal
  · cases raised.symm.trans ran
  · rw [ran] at returned effect
    cases returned
    exact versions_of_effect effect legal rfl

/-- The rows that a decision of this kind decides. -/
def decidedBy (action : Action) (id : Uuid) : List Uuid := if action = .skip then [] else [id]

theorem ledger_of_outcome {input : DecisionInput} {next : FieldReview}
    (legal : LegalReviews d.fieldReviews) (made : input.outcome id d = .ok (next, d')) :
    (decidedIds d').Perm (decidedIds d ++ decidedBy input.action id) := by
  have versions := versions_of_outcome legal made
  rw [decidedBy]
  by_cases skips : input.action = .skip
  · rw [if_pos skips, List.append_nil]
    apply versions.ledger_of_quiet legal
    intro r s does
    rw [DecisionInput.reviewCall, skips] at does
    obtain ⟨queued, rfl⟩ := does
    simp [FieldReview.skip, queued]
  · rw [if_neg skips]
    exact ledger_of_decision versions legal
      (by simp [DecisionInput.reviewCall, ReviewCall.decidesOn, skips])

/-- The tables have moved on, and the rows in `new` are the ones that have been decided. -/
structure Advances (d : Database) (new : List Uuid) (d' : Database) : Prop where
  reviewable : Reviewable d'
  ledger : (decidedIds d').Perm (decidedIds d ++ new)
  keeps : ∀ r ∈ d.fieldReviews, r.reviewState = .reviewed → r ∈ d'.fieldReviews
  confidences : ∀ s ∈ d'.fieldReviews, ∃ r ∈ d.fieldReviews, s.confidence = r.confidence

theorem Advances.refl (reviewable : Reviewable d) : Advances d [] d :=
  ⟨reviewable, by simp, fun _ member _ => member, fun s member => ⟨s, member, rfl⟩⟩

theorem Advances.numbers {new : List Uuid} (advances : Advances d new d') (numbers : Numbers d) :
    Numbers d' := by
  intro s member
  obtain ⟨r, there, same⟩ := advances.confidences s member
  exact same.symm ▸ numbers r there

theorem advances_of_outcome {input : DecisionInput} {next : FieldReview}
    (reviewable : Reviewable d) (made : input.outcome id d = .ok (next, d')) :
    Advances d (decidedBy input.action id) d' := by
  have versions := versions_of_outcome reviewable.legal made
  exact ⟨versions.reviewable reviewable, ledger_of_outcome reviewable.legal made,
    fun r => versions.keeps_decided reviewable.legal, versions.confidences⟩

end IncidentPipeline
