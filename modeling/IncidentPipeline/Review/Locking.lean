import IncidentPipeline.Foundation.Locking
import IncidentPipeline.Review.Ledger
import IncidentPipeline.Worker.Progress

/-!
# Decisions at the same time

`record_decision` starts with `SELECT ... FOR UPDATE` and then reads and writes the row that it
has locked. So decisions in any number can be under way, statement by statement among each other
and among passes and workers that commit, and every one of them does what it does alone on the
tables that are committed when it commits.
-/

namespace IncidentPipeline

open Python Tables Transactions

variable {d d' : Database} {id : Uuid}

/-! ### One row -/

/-- The latest version of a row. -/
def latest (id : Uuid) (d : Database) : Option FieldReview := d.fieldReviews.find? (·.id = id)

/-- Two legal tables with the same version of a row. -/
structure SameRow (id : Uuid) (d d' : Database) : Prop where
  left : LegalReviews d.fieldReviews
  right : LegalReviews d'.fieldReviews
  row : latest id d = latest id d'

theorem SameRow.symm (h : SameRow id d d') : SameRow id d' d := ⟨h.right, h.left, h.row.symm⟩

theorem SameRow.trans {d'' : Database} (h : SameRow id d d') (k : SameRow id d' d'') :
    SameRow id d d'' := ⟨h.left, k.right, h.row.trans k.row⟩

/-- What an `UPDATE` of the row goes over. -/
theorem LegalReviews.filter_id (legal : LegalReviews d.fieldReviews) (id : Uuid) :
    d.fieldReviews.filter (·.id = id) = (latest id d).toList := by
  cases found : latest id d with
  | none =>
      have absent := List.find?_eq_none.mp found
      exact List.filter_eq_nil_iff.mpr absent
  | some r =>
      have member := List.mem_of_find?_eq_some found
      have key : r.id = id := by simpa using List.find?_some found
      rw [← key, legal.table.ids.filter_key member]
      rfl

theorem firstViolated_append {met later : List Check} (holds : ∀ check ∈ met, check.2 = true) :
    firstViolated (met ++ later) = firstViolated later := by
  have none_ : met.find? (fun check => !check.2) = none :=
    List.find?_eq_none.mpr fun check member => by simp [holds check member]
  rw [firstViolated, List.find?_append, none_]
  rfl

/-- A new version of a row violates the constraints on a single row, or none. -/
theorem ReviewTable.apply_update {r after : FieldReview} (table : ReviewTable d.fieldReviews)
    (member : r ∈ d.fieldReviews) (same : r.SameKeys after) :
    postgres.apply (.updateFieldReview r after) d =
      match firstViolated after.rowChecks with
      | some name => .error (constraintViolation name)
      | none =>
          .ok { d with fieldReviews := replaceRow FieldReview.id r.id after d.fieldReviews } := by
  cases violated : firstViolated after.rowChecks with
  | none => exact table.update_ok member same (firstViolated_eq_none.mp violated)
  | some name =>
      have unique : ∀ s ∈ otherRows FieldReview.id r.id d.fieldReviews,
          s.id ≠ after.id ∧ s.slot ≠ after.slot := by
        intro s hs
        obtain ⟨there, other⟩ := mem_otherRows.mp hs
        refine ⟨same.1.symm ▸ other, fun equal => other ?_⟩
        rw [same.2] at equal
        exact congrArg FieldReview.id (table.slots.eq_of_key there member equal)
      have first : firstViolated (after.checks (otherRows FieldReview.id r.id d.fieldReviews)) =
          some name := by
        rw [FieldReview.checks, firstViolated_append, violated]
        simp only [List.forall_mem_cons, List.all_eq_true, decide_eq_true_eq, Bool.or_eq_true,
          List.not_mem_nil, false_imp_iff, implies_true, and_true]
        refine ⟨fun s hs => (unique s hs).1, fun s hs => ?_⟩
        have other := (unique s hs).2
        simpa [FieldReview.slot, ← imp_iff_not_or] using other
      show RowOp.apply _ d = _
      rw [RowOp.apply, RowOp.checks, first]

/-- A new version of the row makes the same difference to both tables. -/
theorem SameRow.update {r after : FieldReview} (h : SameRow id d d') (found : latest id d = some r)
    (same : r.SameKeys after) :
    Related (SameRow id) (postgres.apply (.updateFieldReview r after) d)
      (postgres.apply (.updateFieldReview r after) d') := by
  have key : r.id = id := by simpa using List.find?_some found
  have made : ∀ {e : Database}, LegalReviews e.fieldReviews → latest id e = some r →
      after.Checked →
        LegalReviews (replaceRow FieldReview.id r.id after e.fieldReviews) ∧
          (replaceRow FieldReview.id r.id after e.fieldReviews).find? (·.id = id) = some after := by
    intro e legal there checked
    have member := List.mem_of_find?_eq_some there
    have ids := legal.table.ids.replaceRow same.1
    have slots := legal.table.slots.map (f := fun s => if s.id = r.id then after else s)
      fun s hs => by
        by_cases equal : s.id = r.id
        · rw [if_pos equal, same.2, legal.table.ids.eq_of_key hs member equal]
        · rw [if_neg equal]
    refine ⟨⟨⟨ids, slots⟩, fun s hs => ?_⟩, ?_⟩
    · obtain rfl | ⟨old, _⟩ := mem_replaceRow hs
      · exact checked
      · exact legal.checked s old
    · have found := ids.find? (after_mem_replaceRow member rfl)
      rw [same.1] at found
      simpa only [key] using found
  have there : latest id d' = some r := h.row.symm.trans found
  rw [h.left.table.apply_update (List.mem_of_find?_eq_some found) same,
    h.right.table.apply_update (List.mem_of_find?_eq_some there) same]
  cases violated : firstViolated after.rowChecks with
  | some name => exact rfl
  | none =>
      have checked := firstViolated_eq_none.mp violated
      obtain ⟨left, first⟩ := made h.left found checked
      obtain ⟨right, second⟩ := made h.right there checked
      exact ⟨left, right, first.trans second.symm⟩

/-! ### The program looks at one row -/

theorem local_getFieldReview : (getFieldReview id).Local postgres (SameRow id) := by
  refine Prog.local_bind (Prog.local_execute ?_ ?_) fun found => ?_
  · intro c c' d d' h
    exact congrArg (fun row => Except.ok (row, ([] : List RowOp))) h.row
  · intro c d d' reply ops h answer
    cases answer
    exact h
  · cases found <;> exact trivial

theorem local_updateFieldReviewSql {texts : List String} {json : Option Json}
    {set : FieldReview → FieldReview} (same : ∀ r : FieldReview, r.SameKeys (set r)) :
    (Prog.execute (updateFieldReviewSql id texts json set)).Local postgres (SameRow id) := by
  refine Prog.local_execute ?_ ?_
  · intro c c' d d' h
    simp only [updateFieldReviewSql, h.left.filter_id, h.right.filter_id, h.row]
  · intro c d d' reply ops h answer
    simp only [updateFieldReviewSql, h.left.filter_id] at answer
    split at answer
    · cases answer
    cases answer
    cases found : latest id d with
    | none => exact h
    | some r =>
        have updated := h.update found (same r)
        simp only [Option.toList_some, List.map_cons, List.map_nil, Server.replay]
        revert updated
        cases postgres.apply (.updateFieldReview r (set r)) d <;>
          cases postgres.apply (.updateFieldReview r (set r)) d' <;> exact fun updated => updated

/-- After its first statement a decision depends on nothing but the row that it has locked. -/
theorem local_recordDecision (input : DecisionInput) :
    (input.program id).Local postgres (SameRow id) := by
  obtain ⟨rt, now, action, reviewer, correctedValue, note⟩ := input
  refine Prog.local_bind local_getFieldReview fun current => ?_
  have records : ∀ {texts : List String} {json : Option Json} {set : FieldReview → FieldReview},
      (∀ r : FieldReview, r.SameKeys (set r)) →
      (Prog.bind (.execute (updateFieldReviewSql id texts json set)) fun _ =>
        getFieldReview id).Local postgres (SameRow id) :=
    fun same => Prog.local_bind (local_updateFieldReviewSql same) fun _ => local_getFieldReview
  split
  · exact trivial
  split
  · split
    · exact trivial
    · exact records fun r => (r.skip_sameOrigin now).sameKeys
  dsimp only
  split
  · exact trivial
  split
  · exact records fun r => (r.accept_sameOrigin now _ note).sameKeys
  · refine Prog.local_bind trivial fun value => ?_
    split
    · exact trivial
    · exact records fun r => (r.correct_sameOrigin now value _ note).sameKeys

/-! ### Who else writes review rows -/

/-- What passes and workers commit: rows that are routed, and new rows. -/
structure Elsewhere (d d' : Database) : Prop where
  legal : LegalReviews d'.fieldReviews
  old : ∀ r ∈ d.fieldReviews, r ∈ d'.fieldReviews ∨
    r.reviewState = .unreviewed ∧ ∃ now, r.route now ∈ d'.fieldReviews
  new : ∀ s ∈ d'.fieldReviews, s ∈ d.fieldReviews ∨
    (∃ r ∈ d.fieldReviews, ∃ now, s = r.route now) ∨ s.Fresh

/-- Every call but a decision is of that kind. -/
theorem Effect.elsewhere {call : ReviewCall} {own : List Uuid} (effect : Effect call own d d')
    (legal : LegalReviews d.fieldReviews)
    (other : ∀ {r s}, call.Does r s → r.reviewState = .unreviewed ∧ ∃ now, s = r.route now) :
    Elsewhere d d' := by
  refine ⟨effect.legal legal, ?_, ?_⟩
  all_goals obtain ⟨f, new, rfl, changed, inserts, _⟩ := effect.changed
  · intro r hr
    have kept : f r ∈ d.fieldReviews.map f ++ new :=
      List.mem_append_left _ (List.mem_map_of_mem hr)
    obtain same | ⟨_, does⟩ := changed r hr
    · rw [same] at kept
      exact .inl kept
    · obtain ⟨open_, now, routed⟩ := other does
      rw [routed] at kept
      exact .inr ⟨open_, now, kept⟩
  · intro s hs
    obtain old | inserted := List.mem_append.mp hs
    · obtain ⟨r, hr, rfl⟩ := List.mem_map.mp old
      obtain same | ⟨_, does⟩ := changed r hr
      · rw [same]
        exact .inl hr
      · exact .inr (.inl ⟨r, hr, (other does).2⟩)
    · exact .inr (.inr (inserts s inserted).2.fresh)

theorem elsewhere_of_pass {collation : Collation} {now : Time} {floor : ℚ} {budget : Option Int}
    {own : List Uuid} (effect : Effect (.route collation now floor budget) own d d')
    (legal : LegalReviews d.fieldReviews) : Elsewhere d d' :=
  effect.elsewhere legal fun does =>
    ⟨(FieldReview.eligible_iff.mp does.1).1, now, does.2⟩

theorem elsewhere_of_create {ids : Nat → Uuid} {now : Time} {extractionId : Uuid}
    {record confidence : Json} {own : List Uuid}
    (effect : Effect (.create ids now extractionId record confidence) own d d')
    (legal : LegalReviews d.fieldReviews) : Elsewhere d d' :=
  effect.elsewhere legal fun does => does.elim

/-- A pass or an extraction that goes through is something else. -/
theorem elsewhere_of_run {call : ReviewCall} {context : Context} {own : List Uuid}
    (legal : LegalReviews d.fieldReviews) (undecided : call.row? = none)
    (returned : (call.run context d).1 = .ok own) : Elsewhere d (call.run context d).2 := by
  obtain ⟨e, raised⟩ | ⟨own', _, effect⟩ := call.run_cases context legal
  · rw [raised] at returned
    cases returned
  · cases call with
    | create ids now extractionId record confidence => exact elsewhere_of_create effect legal
    | route collation now floor budget => exact elsewhere_of_pass effect legal
    | decide => cases undecided

namespace Elsewhere

variable (elsewhere : Elsewhere d d')

include elsewhere in
/-- Nothing else decides. -/
theorem ledger (legal : LegalReviews d.fieldReviews) : (decidedIds d').Perm (decidedIds d) := by
  rw [List.perm_ext_iff_of_nodup (decidedIds_nodup elsewhere.legal) (decidedIds_nodup legal)]
  intro id
  rw [mem_decidedIds, mem_decidedIds]
  constructor
  · rintro ⟨s, hs, decided, same⟩
    obtain old | ⟨r, _, now, rfl⟩ | fresh := elsewhere.new s hs
    · exact ⟨s, old, decided, same⟩
    · cases decided
    · cases fresh.state.symm.trans decided
  · rintro ⟨r, hr, decided, same⟩
    obtain old | ⟨open_, _⟩ := elsewhere.old r hr
    · exact ⟨r, old, decided, same⟩
    · cases open_.symm.trans decided

include elsewhere in
theorem keeps_decided {r : FieldReview} (member : r ∈ d.fieldReviews)
    (decided : r.reviewState = .reviewed) : r ∈ d'.fieldReviews := by
  obtain old | ⟨open_, _⟩ := elsewhere.old r member
  · exact old
  · cases open_.symm.trans decided

include elsewhere in
/-- Nothing else skips. -/
theorem keeps_skips {r : FieldReview} (member : r ∈ d.fieldReviews) :
    ∃ s ∈ d'.fieldReviews, s.id = r.id ∧ s.skipCount = r.skipCount := by
  obtain old | ⟨_, now, routed⟩ := elsewhere.old r member
  · exact ⟨r, old, rfl, rfl⟩
  · exact ⟨r.route now, routed, rfl, rfl⟩

end Elsewhere

/-! ### Decisions under the lock -/

theorem latest_eq_some (legal : LegalReviews d.fieldReviews) {r : FieldReview} :
    latest id d = some r ↔ r ∈ d.fieldReviews ∧ r.id = id := by
  constructor
  · exact fun found => ⟨List.mem_of_find?_eq_some found, by simpa using List.find?_some found⟩
  · rintro ⟨member, rfl⟩
    exact legal.table.ids.find? member

/-- A call does not touch a row that is not its own. -/
theorem SameRow.of_run {call : ReviewCall} {context : Context} {own : List Uuid}
    (legal : LegalReviews d.fieldReviews) (returned : (call.run context d).1 = .ok own)
    (other : id ∉ own) : SameRow id d (call.run context d).2 := by
  obtain ⟨e, raised⟩ | ⟨own', returned', effect⟩ := call.run_cases context legal
  · rw [raised] at returned
    cases returned
  · cases returned.symm.trans returned'
    have kept := effect.legal legal
    refine ⟨legal, kept, Option.ext fun r => ?_⟩
    rw [latest_eq_some legal, latest_eq_some kept]
    exact and_congr_left fun key => (effect.frame (key ▸ other)).symm

/-- The decision of one row does not touch another. -/
theorem SameRow.of_outcome {input : DecisionInput} {next : FieldReview}
    (legal : LegalReviews d.fieldReviews) (made : input.outcome id d = .ok (next, d')) {j : Uuid}
    (other : j ≠ id) : SameRow j d d' := by
  have ran : (input.reviewCall id).run ⟨d, []⟩ d = (.ok [id], d') :=
    DecisionInput.run_of_outcome legal made
  have same := SameRow.of_run legal (congrArg Prod.fst ran) (List.mem_singleton.not.mpr other)
  rwa [ran] at same

/-- What a decision executed alone has done if it has returned. -/
theorem DecisionInput.outcome_of_serial {input : DecisionInput} {context : Context}
    {next : FieldReview} (legal : LegalReviews d.fieldReviews)
    (returns : (input.program id).serial postgres context ⟨d, false⟩ = (.ok next, ⟨d', false⟩)) :
    input.outcome id d = .ok (next, d') := by
  have computes : (input.program id).Computes postgres context d (input.outcome id d) :=
    recordDecision_computes input legal
  cases made : input.outcome id d with
  | error e =>
      rw [made] at computes
      cases (congrArg Prod.fst returns).symm.trans computes
  | ok out =>
      rw [made] at computes
      cases returns.symm.trans computes
      rfl

/-- Decisions lock the row that they are about. -/
def decisionLocks : LockSystem Context Database RowOp Exc FieldReview Uuid where
  server := postgres
  good := fun d => LegalReviews d.fieldReviews
  same := SameRow
  row := fun id d => ∃ r ∈ d.fieldReviews, r.id = id
  programs := fun id p => ∃ input : DecisionInput, p = input.program id
  others := Elsewhere
  itself := fun legal => ⟨legal, legal, rfl⟩
  symm := SameRow.symm
  trans := SameRow.trans
  looks := by
    rintro id _ ⟨input, rfl⟩
    exact local_recordDecision input
  starts := by
    rintro id r ⟨input, same⟩
    cases same
  missing := by
    rintro id ρ s next ⟨input, same⟩ m _ absent
    cases same
    obtain ⟨e, _, served⟩ | ⟨_, e, served⟩ |
        ⟨_, _, _, visible, reply, ops, finish, seen, answer, _, served⟩ :=
      postgres.serve_cases (selectFieldReview id) m .fresh
    · exact ⟨e, by rw [served]; rfl⟩
    · exact ⟨e, by rw [served]; rfl⟩
    · cases seen
      cases answer
      have none_ : m.committed.fieldReviews.find? (·.id = id) = none :=
        List.find?_eq_none.mpr fun r hr key => absent ⟨r, hr, by simpa using key⟩
      refine ⟨fieldReviewNotFound id, ?_⟩
      dsimp only at served
      rw [none_] at served
      rw [served]
      rfl
  frame := by
    rintro id _ context d d' next ⟨input, rfl⟩ legal returns
    have made := input.outcome_of_serial legal returns
    exact ⟨(versions_of_outcome legal made).legal, fun j other => .of_outcome legal made other⟩
  others_good := fun elsewhere _ => elsewhere.legal

/-! ### The decisions of a run -/

abbrev DecisionLabel := LockLabel Context Database RowOp Exc FieldReview Uuid

/-- Decisions made one after another, each on the tables that the one before has left. -/
inductive OneByOne (d : Database) : List DecisionLabel → Database → Prop where
  | refl : OneByOne d [] d
  | quiet {labels : List DecisionLabel} {e : Database} (before : OneByOne d labels e) :
      OneByOne d (labels ++ [.quiet]) e
  | decided {labels : List DecisionLabel} {e f : Database} {input : DecisionInput} {id : Uuid}
      {next : FieldReview} (before : OneByOne d labels e)
      (made : input.outcome id e = .ok (next, f)) :
      OneByOne d (labels ++ [.committed id (input.program id) next]) f
  | others {labels : List DecisionLabel} {e f : Database} (before : OneByOne d labels e)
      (elsewhere : Elsewhere e f) : OneByOne d (labels ++ [.others]) f

/-- The rows that a step decides. -/
def decidedAt : DecisionLabel → List Uuid
  | .committed id _ next => if next.reviewState = .reviewed then [id] else []
  | _ => []

/-- How often a step skips a row. -/
def skipsAt (id : Uuid) : DecisionLabel → Nat
  | .committed key _ next => if key = id ∧ next.reviewState ≠ .reviewed then 1 else 0
  | _ => 0

/-- What decisions leave behind: the rows that they have decided, as they have been reported, and
every skip. -/
structure Kept (d : Database) (labels : List DecisionLabel) (e : Database) : Prop where
  legal : LegalReviews e.fieldReviews
  ledger : (decidedIds e).Perm (decidedIds d ++ labels.flatMap decidedAt)
  reported : ∀ id p next, .committed id p next ∈ labels → next.reviewState = .reviewed →
    next ∈ e.fieldReviews
  skips : ∀ r ∈ d.fieldReviews, ∃ s ∈ e.fieldReviews, s.id = r.id ∧
    s.skipCount = r.skipCount + (labels.map (skipsAt r.id)).sum

theorem decidedAt_of_outcome {input : DecisionInput} {next : FieldReview}
    (made : input.outcome id d = .ok (next, d')) (p : Prog Context Database RowOp Exc FieldReview) :
    decidedAt (.committed id p next) = decidedBy input.action id := by
  have reviewed := reviewed_of_outcome made
  by_cases skips : input.action = .skip <;> simp [decidedAt, decidedBy, reviewed, skips]

theorem skips_of_outcome {input : DecisionInput} {next r : FieldReview}
    (legal : LegalReviews d.fieldReviews) (made : input.outcome id d = .ok (next, d'))
    (p : Prog Context Database RowOp Exc FieldReview) (member : r ∈ d.fieldReviews) :
    ∃ s ∈ d'.fieldReviews, s.id = r.id ∧
      s.skipCount = r.skipCount + skipsAt r.id (.committed id p next) := by
  have versions := versions_of_outcome legal made
  by_cases mine : r.id = id
  · obtain ⟨current, there, key, does⟩ := DecisionInput.outcome_does made
    obtain rfl := legal.table.ids.eq_of_key there member (key.trans mine.symm)
    refine ⟨next, DecisionInput.outcome_mem made, does.sameOrigin.id, ?_⟩
    have reviewed := reviewed_of_outcome made
    rw [DecisionInput.reviewCall] at does
    cases action : input.action with
    | skip =>
        rw [action] at does
        obtain ⟨queued, rfl⟩ := does
        simp [skipsAt, mine, FieldReview.skip, queued]
    | accept =>
        rw [action] at does
        obtain ⟨_, _, rfl⟩ := does
        simp [skipsAt, FieldReview.accept]
    | correct =>
        rw [action] at does
        obtain ⟨_, _, _, _, rfl⟩ := does
        simp [skipsAt, FieldReview.correct]
  · refine ⟨r, versions.old r member (by simpa using mine), rfl, ?_⟩
    simp [skipsAt, Ne.symm mine]

theorem kept_refl (legal : LegalReviews d.fieldReviews) : Kept d [] d :=
  ⟨legal, by simp, by simp, fun r hr => ⟨r, hr, rfl, rfl⟩⟩

namespace Kept

variable {e f : Database} {labels : List DecisionLabel} (kept : Kept d labels e)

include kept in
theorem quiet : Kept d (labels ++ [.quiet]) e := by
  refine ⟨kept.legal, by simpa [decidedAt] using kept.ledger, fun id p next reported => ?_, ?_⟩
  · exact kept.reported id p next (by simpa using reported)
  · simpa [skipsAt] using kept.skips

include kept in
theorem others (elsewhere : Elsewhere e f) : Kept d (labels ++ [.others]) f := by
  refine ⟨elsewhere.legal, ?_, fun id p next reported decided => ?_, fun r hr => ?_⟩
  · simpa [decidedAt] using (elsewhere.ledger kept.legal).trans kept.ledger
  · exact elsewhere.keeps_decided (kept.reported id p next (by simpa using reported) decided)
      decided
  · obtain ⟨s, hs, key, count⟩ := kept.skips r hr
    obtain ⟨t, ht, same, still⟩ := elsewhere.keeps_skips hs
    refine ⟨t, ht, same.trans key, ?_⟩
    simpa [skipsAt] using still.trans count

include kept in
theorem decided {input : DecisionInput} {next : FieldReview}
    (made : input.outcome id e = .ok (next, f)) :
    Kept d (labels ++ [.committed id (input.program id) next]) f := by
  have versions := versions_of_outcome kept.legal made
  refine ⟨versions.legal, ?_, fun j p row reported decided => ?_, fun r hr => ?_⟩
  · have more := (ledger_of_outcome kept.legal made).trans (kept.ledger.append_right _)
    simpa [decidedAt_of_outcome made] using more
  · obtain earlier | now := List.mem_append.mp reported
    · exact versions.keeps_decided kept.legal (kept.reported j p row earlier decided) decided
    · cases List.mem_singleton.mp now
      exact DecisionInput.outcome_mem made
  · obtain ⟨s, hs, key, count⟩ := kept.skips r hr
    obtain ⟨t, ht, same, more⟩ := skips_of_outcome kept.legal made (input.program id) hs
    refine ⟨t, ht, same.trans key, ?_⟩
    rw [key] at more
    simp only [List.map_append, List.map_cons, List.map_nil, List.sum_append, List.sum_cons,
      List.sum_nil]
    omega

end Kept

theorem OneByOne.kept {labels : List DecisionLabel} {e : Database} (run : OneByOne d labels e)
    (legal : LegalReviews d.fieldReviews) : Kept d labels e := by
  induction run with
  | refl => exact kept_refl legal
  | quiet _ ih => exact ih.quiet
  | decided _ made ih => exact ih.decided made
  | others _ elsewhere ih => exact ih.others elsewhere

/-- What serialisability says about decisions. -/
theorem oneByOne_of_serially {labels : List DecisionLabel} {e : Database}
    (serially : decisionLocks.Serially d labels e) (legal : LegalReviews d.fieldReviews) :
    OneByOne d labels e := by
  induction serially with
  | refl => exact .refl
  | quiet _ ih => exact ih.quiet
  | committed _ allowed serial ih =>
      obtain ⟨input, rfl⟩ := allowed
      exact ih.decided (input.outcome_of_serial (ih.kept legal).legal (serial ⟨d, []⟩))
  | others _ elsewhere ih => exact ih.others elsewhere

/-- However their statements are interleaved, decisions do what they do one after another: each
row is decided at most once, no decision that has been reported is lost and no skip is. -/
theorem concurrent_decisions {labels : List DecisionLabel}
    {w : LockWorld Context Database RowOp Exc FieldReview Uuid}
    (legal : LegalReviews d.fieldReviews) (run : decisionLocks.Run ⟨d, []⟩ labels w) :
    OneByOne d labels w.committed ∧
      (decidedIds d ++ labels.flatMap decidedAt).Nodup ∧
      (decidedIds w.committed).Perm (decidedIds d ++ labels.flatMap decidedAt) ∧
      (∀ id p next, .committed id p next ∈ labels → next.reviewState = .reviewed →
        next ∈ w.committed.fieldReviews) ∧
      ∀ r ∈ d.fieldReviews, ∃ s ∈ w.committed.fieldReviews, s.id = r.id ∧
        s.skipCount = r.skipCount + (labels.map (skipsAt r.id)).sum := by
  have : Nonempty Context := ⟨⟨d, []⟩⟩
  have valid : (LockWorld.mk d []).Valid decisionLocks :=
    ⟨legal, by simp, List.Pairwise.nil⟩
  have oneByOne := oneByOne_of_serially (run.serially valid) legal
  have kept := oneByOne.kept legal
  exact ⟨oneByOne, kept.ledger.nodup_iff.mp (decidedIds_nodup kept.legal), kept.ledger,
    kept.reported, kept.skips⟩

/-! The first of the extracted rows waits for a decision. One reviewer skips it, and another one
accepts it; in between a pass routes the other rows. -/

def firstRouted : Database :=
  { extracted with
    fieldReviews := extracted.fieldReviews.map fun r => if r.id = 3000 then r.route 7 else r }

theorem firstRouted_legal : LegalReviews firstRouted.fieldReviews := by
  have legal := (service_reviewable (by decide) served_extracted).legal
  have keeps : ∀ r : FieldReview, r.SameKeys (if r.id = 3000 then r.route 7 else r) := by
    intro r
    split
    · exact (r.route_sameOrigin 7).sameKeys
    · exact ⟨rfl, rfl⟩
  have eligible : ∀ r ∈ extracted.fieldReviews, r.eligible 2 = true := by decide +kernel
  refine ⟨⟨legal.table.ids.map fun r _ => (keeps r).1, legal.table.slots.map fun r _ =>
    (keeps r).2⟩, fun s member => ?_⟩
  obtain ⟨r, there, rfl⟩ := List.mem_map.mp member
  have checked := legal.checked r there
  split
  · have routes : (ReviewCall.route byCodePoint 7 2 none).Does r (r.route 7) :=
      ⟨eligible r there, rfl⟩
    exact routes.checked checked
  · exact checked

/-- A pass leaves the rows alone that have been routed before. -/
theorem SameRow.of_pass {collation : Collation} {now : Time} {floor : ℚ} {budget : Option Int}
    {context : Context} {own : List Uuid} (legal : LegalReviews d.fieldReviews)
    (returned : ((ReviewCall.route collation now floor budget).run context d).1 = .ok own)
    (routed : ∃ r ∈ d.fieldReviews, r.id = id ∧ r.reviewState = .routed) :
    SameRow id d ((ReviewCall.route collation now floor budget).run context d).2 := by
  obtain ⟨e, raised⟩ | ⟨own', same, effect⟩ :=
    (ReviewCall.route collation now floor budget).run_cases context legal
  · rw [raised] at returned
    cases returned
  · cases returned.symm.trans same
    refine .of_run legal returned fun mine => ?_
    obtain ⟨r, there, key, waits⟩ := routed
    obtain ⟨s, member, equal, _, _, eligible, _⟩ := (versions_of_effect effect legal rfl).own id mine
    obtain rfl := legal.table.ids.eq_of_key member there (equal.trans key.symm)
    cases waits.symm.trans (FieldReview.eligible_iff.mp eligible).1

def anaSkips : DecisionInput := ⟨.ascii, 9, .skip, none, .null, none⟩

def benAccepts : DecisionInput := ⟨.ascii, 10, .accept, some "ben", .null, none⟩

/-- What a decision does that is made alone. -/
theorem DecisionInput.serial_of_outcome {input : DecisionInput} {next : FieldReview}
    (legal : LegalReviews d.fieldReviews) (made : input.outcome id d = .ok (next, d'))
    (context : Context) :
    (input.program id).serial postgres context ⟨d, false⟩ = (.ok next, ⟨d', false⟩) := by
  have computes : (input.program id).Computes postgres context d _ :=
    recordDecision_computes input legal
  rwa [made] at computes

/-- A row that can be revised is. -/
theorem DecisionInput.outcome_of_revision {input : DecisionInput} {r : FieldReview}
    {revision : Revision} (found : latest id d = some r) (revised : input.revision r = .ok revision)
    (free : revision.obstacle = none) :
    input.outcome id d = .ok (revision.next,
      { d with fieldReviews := replaceRow FieldReview.id id revision.next d.fieldReviews }) := by
  rw [latest] at found
  rw [DecisionInput.outcome, found]
  simp only [revised, except_ok_then, Revision.apply, free]

/-- The acceptance waits until the skip has been committed, and the pass does not wait. -/
theorem concurrent_decisions_accepted :
    ∃ labels w, decisionLocks.Run ⟨firstRouted, []⟩ labels w ∧
      OneByOne firstRouted labels w.committed ∧
      ∃ r ∈ w.committed.fieldReviews, r.id = 3000 ∧ r.skipCount = 1 ∧ r.reviewer = some "ben" := by
  let context : Context := ⟨firstRouted, []⟩
  have : Nonempty Context := ⟨context⟩
  have legal := firstRouted_legal
  have valid : (LockWorld.mk firstRouted []).Valid decisionLocks := ⟨legal, by simp, .nil⟩
  obtain ⟨r, there, key, waits, unskipped⟩ : ∃ r ∈ firstRouted.fieldReviews,
      r.id = 3000 ∧ r.reviewState = .routed ∧ r.skipCount = 0 := by decide +kernel
  -- a pass, which commits while the row is locked
  let pass : ReviewCall := .route byCodePoint 8 2 none
  obtain ⟨result, routed, _⟩ :=
    @routePending_serial byCodePoint 8 2 none context firstRouted (by simp) legal
  have returned : (pass.run context firstRouted).1 = .ok (result.routed.map RankedField.id) := by
    simp [pass, ReviewCall.run, ReviewCall.program, Prog.serial_bind, routed]
  have elsewhere := elsewhere_of_run legal rfl returned
  have untouched : SameRow 3000 _ _ := SameRow.of_pass legal returned ⟨r, there, key, waits⟩
  -- the skip, before and after the pass
  have found : latest 3000 firstRouted = some r := (latest_eq_some legal).mpr ⟨there, key⟩
  have skips : anaSkips.revision r = .ok ⟨[], none, r.skip 9⟩ := by
    simp [DecisionInput.revision, anaSkips, waits]
  have first := DecisionInput.outcome_of_revision found skips rfl
  have second := DecisionInput.outcome_of_revision (untouched.row.symm.trans found) skips rfl
  -- the acceptance
  have skipped := (versions_of_outcome untouched.right second).legal
  have again := (latest_eq_some skipped).mpr ⟨DecisionInput.outcome_mem second, key⟩
  have accepts : benAccepts.revision (r.skip 9) =
      .ok ⟨["ben"], none, (r.skip 9).accept 10 "ben" none⟩ := by
    have named : strip "ben" = "ben" := by decide
    simp [DecisionInput.revision, benAccepts, FieldReview.skip, waits, named]
  have sendable : refusedText ["ben"] = none := by decide
  have third := DecisionInput.outcome_of_revision again accepts
    (by simp [Revision.obstacle, sendable])
  -- the run: the skip has the row, the acceptance comes, and the pass commits
  have skipping : decisionLocks.programs 3000 (anaSkips.program 3000) := ⟨anaSkips, rfl⟩
  have accepting : decisionLocks.programs 3000 (benAccepts.program 3000) := ⟨benAccepts, rfl⟩
  obtain ⟨session, rest, alive, locks⟩ := @LockSystem.locks _ _ _ _ _ _ [] [] 3000 _ _ _ _
    decisionLocks context skipping ⟨r, there, key⟩ (by simp)
    (DecisionInput.serial_of_outcome legal first context)
  have begins : decisionLocks.Run ⟨firstRouted, []⟩ _ _ := .single (.begin skipping)
  have waiting := (begins.snoc locks).snoc (.begin accepting)
  have passed := waiting.snoc (.others elsewhere fun t member holds => by
    simp only [List.nil_append, List.mem_cons, List.not_mem_nil, or_false] at member
    obtain rfl | rfl := member
    · exact holds.elim
    · exact untouched)
  -- now the skip commits, and then the acceptance
  obtain ⟨early, commits⟩ := @LockWorld.Valid.finishes _ _ _ _ _ _ decisionLocks
    [⟨3000, benAccepts.program 3000, .waiting⟩] [] 3000 _ _ _ _ session rest context
    (passed.valid valid) alive (DecisionInput.serial_of_outcome untouched.right second context)
  have free := passed.trans commits
  obtain ⟨session', rest', alive', locks'⟩ := @LockSystem.locks _ _ _ _ _ _ [] [] 3000 _ _ _ _
    decisionLocks context accepting ⟨_, DecisionInput.outcome_mem second, key⟩ (by simp)
    (DecisionInput.serial_of_outcome skipped third context)
  have held := free.snoc locks'
  obtain ⟨late, ends⟩ := @LockWorld.Valid.finishes _ _ _ _ _ _ decisionLocks [] [] 3000 _ _ _ _
    session' rest' context (held.valid valid) alive'
    (DecisionInput.serial_of_outcome skipped third context)
  have run := held.trans ends
  obtain ⟨oneByOne, _, _, reported, _⟩ := concurrent_decisions legal run
  refine ⟨_, _, run, oneByOne, (r.skip 9).accept 10 "ben" none, ?_, key, ?_, rfl⟩
  · exact reported 3000 (benAccepts.program 3000) _ (by simp) rfl
  · exact congrArg (· + 1) unskipped

end IncidentPipeline
