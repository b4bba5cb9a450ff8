import IncidentPipeline.Review.States

/-!
# Decisions as a function of the table

`record_decision` executed alone: what it does to the row it has locked, which exception it
raises instead, and that it does nothing else. Both front ends of the review rest on it.
-/

namespace IncidentPipeline

open Python Tables Transactions

/-! ### The new version of a row -/

/-- What an action writes: its parameters, and the version that they make of the row. -/
structure Revision where
  texts : List String
  json : Option Json
  next : FieldReview

/-- What the reviewer asks for. -/
structure DecisionInput where
  rt : Runtime
  now : Time
  action : Action
  reviewer : Option String
  correctedValue : Json
  note : Option String

/-- The action on a row, or what keeps it from being taken. -/
def DecisionInput.revision (input : DecisionInput) (current : FieldReview) :
    Except Exc Revision :=
  let reviewer := strip (input.reviewer.getD "")
  if current.reviewState = .reviewed then .error (alreadyReviewed current)
  else
    match input.action with
    | .skip =>
        if current.reviewState = .routed then .ok ⟨[], none, current.skip input.now⟩
        else .error (notRouted current)
    | .accept =>
        if reviewer = "" then .error reviewerRequired
        else .ok ⟨reviewer :: input.note.toList, none, current.accept input.now reviewer input.note⟩
    | .correct =>
        if reviewer = "" then .error reviewerRequired
        else do
          let value ← validateCorrection input.rt current.field input.correctedValue
          if value.pyEq current.modelValue then .error (equalsExtracted current.field)
          else
            return ⟨reviewer :: input.note.toList, some value,
              current.correct input.now value reviewer input.note⟩

/-- What the parameters run into before anything is written. -/
def Revision.obstacle (revision : Revision) : Option Exc :=
  match refusedText revision.texts with
  | some e => some e
  | none => if revision.json.any jsonHasNul then some unsupportedEscape else none

/-- The tables with the new version in the place of the row. -/
def Revision.apply (revision : Revision) (id : Uuid) (d : Database) :
    Except Exc (FieldReview × Database) :=
  match revision.obstacle with
  | some e => .error e
  | none =>
      .ok (revision.next,
        { d with fieldReviews := replaceRow FieldReview.id id revision.next d.fieldReviews })

/-- The decided row and the tables after the decision. -/
def DecisionInput.outcome (input : DecisionInput) (id : Uuid) (d : Database) :
    Except Exc (FieldReview × Database) :=
  match d.fieldReviews.find? (·.id = id) with
  | none => .error (fieldReviewNotFound id)
  | some current => do
      let revision ← input.revision current
      revision.apply id d

/-- What a decision on a row that is there may raise. -/
theorem DecisionInput.revision_raises {input : DecisionInput} {current : FieldReview} {e : Exc}
    (raised : input.revision current = .error e) : e.cls ≠ .fieldReviewNotFoundError := by
  obtain ⟨rt, now, action, reviewer, correctedValue, note⟩ := input
  rw [DecisionInput.revision] at raised
  split at raised
  · cases raised
    simp [alreadyReviewed]
  · cases action with
    | skip =>
        dsimp only at raised
        split at raised
        · cases raised
        · cases raised
          simp [notRouted]
    | accept =>
        dsimp only at raised
        split at raised
        · cases raised
          simp [reviewerRequired]
        · cases raised
    | correct =>
        dsimp only at raised
        split at raised
        · cases raised
          simp [reviewerRequired]
        · cases validated : validateCorrection rt current.field correctedValue with
          | error raisedBy =>
              rw [validated] at raised
              cases raised
              simp [cls_of_validateCorrection validated]
          | ok value =>
              simp only [validated, except_ok_then] at raised
              split at raised
              · cases raised
                simp [equalsExtracted]
              · cases raised

theorem Revision.apply_raises {revision : Revision} {id : Uuid} {d : Database} {e : Exc}
    (raised : revision.apply id d = .error e) : e.cls ≠ .fieldReviewNotFoundError := by
  rw [Revision.apply, Revision.obstacle, refusedText] at raised
  split_ifs at raised <;> cases raised <;> simp [unsupportedEscape, databaseError]

/-- A decision does not lose the row that it has found. -/
theorem DecisionInput.outcome_raises {input : DecisionInput} {id : Uuid} {d : Database}
    {current : FieldReview} {e : Exc} (found : d.fieldReviews.find? (·.id = id) = some current)
    (raised : input.outcome id d = .error e) : e.cls ≠ .fieldReviewNotFoundError := by
  rw [DecisionInput.outcome, found] at raised
  dsimp only at raised
  cases revised : input.revision current with
  | error raisedBy =>
      rw [revised] at raised
      cases raised
      exact DecisionInput.revision_raises revised
  | ok revision =>
      rw [revised] at raised
      exact Revision.apply_raises raised

/-! ### The program -/

section Program

variable {input : DecisionInput} {current : FieldReview} {revision : Revision} {d : Database}
  {context : Context} {id : Uuid}

/-- A revision is what the call may do to the row. -/
theorem DecisionInput.revision_does (made : input.revision current = .ok revision) (id : Uuid) :
    (ReviewCall.decide input.rt input.now id input.action input.reviewer input.correctedValue
      input.note).Does current revision.next := by
  obtain ⟨rt, now, action, reviewer, correctedValue, note⟩ := input
  rw [DecisionInput.revision] at made
  split at made
  · cases made
  · next open_ =>
      cases action with
      | skip =>
          dsimp only at made
          split at made
          · next queued =>
              cases made
              exact ⟨queued, rfl⟩
          · cases made
      | accept =>
          dsimp only at made
          split at made
          · cases made
          · cases made
            exact ⟨open_, _, rfl⟩
      | correct =>
          dsimp only at made
          split at made
          · cases made
          · obtain ⟨value, _, made⟩ := except_bind_ok.mp made
            split at made
            · cases made
            · next differs =>
                cases made
                exact ⟨open_, value, _, by simpa using differs, rfl⟩

theorem getFieldReview_computes {row : FieldReview}
    (read : d.fieldReviews.find? (·.id = id) = some row) :
    (getFieldReview id).Computes postgres context d (.ok (row, d)) := by
  refine Prog.computes_bind_ok (Prog.computes_execute rfl rfl rfl) ?_
  dsimp only
  rw [read]
  rfl

theorem getFieldReview_missing (missing : d.fieldReviews.find? (·.id = id) = none) :
    (getFieldReview id).Computes postgres context d (.error (fieldReviewNotFound id)) := by
  refine Prog.computes_bind_ok (Prog.computes_execute rfl rfl rfl) ?_
  dsimp only
  rw [missing]
  rfl

/-- The statement that records an action, with the read of the row that follows it. -/
theorem recordAction_computes {texts : List String} {json : Option Json}
    {set : FieldReview → FieldReview} (legal : LegalReviews d.fieldReviews)
    (read : d.fieldReviews.find? (·.id = id) = some current)
    (same : ∀ r : FieldReview, r.SameKeys (set r)) (checked : (set current).Checked) :
    (Prog.bind (.execute (updateFieldReviewSql id texts json set)) fun _ =>
      getFieldReview id).Computes postgres context d
      ((⟨texts, json, set current⟩ : Revision).apply id d) := by
  have member := List.mem_of_find?_eq_some read
  obtain rfl : current.id = id := by simpa using List.find?_some read
  have only : ∀ r ∈ d.fieldReviews, r.id = current.id → r = current := fun r hr h =>
    legal.table.ids.eq_of_key hr member h
  cases refused : refusedText texts with
  | some e =>
      simp only [Revision.apply, Revision.obstacle, refused]
      exact Prog.computes_bind_error (Prog.computes_refused refused)
  | none =>
      by_cases nul : json.any jsonHasNul = true
      · simp only [Revision.apply, Revision.obstacle, refused, nul, if_true]
        refine Prog.computes_bind_error (Prog.computes_rejected refused ?_)
        exact if_pos nul
      · simp only [Revision.apply, Revision.obstacle, refused, nul]
        have mapped := @ReviewTable.replay_update d legal.table
          (fun r => decide (r.id = current.id)) set (fun r _ => same r)
          (fun r hr h => by rwa [only r hr (by simpa using h)])
        have replaced : (d.fieldReviews.map fun r =>
            if decide (r.id = current.id) = true then set r else r) =
              replaceRow FieldReview.id current.id (set current) d.fieldReviews := by
          refine List.map_congr_left fun r hr => ?_
          by_cases h : r.id = current.id
          · simp [only r hr h]
          · simp [h]
        rw [replaced] at mapped
        refine Prog.computes_bind_ok (Prog.computes_execute refused (if_neg nul) mapped) ?_
        apply getFieldReview_computes
        have keyed : Keyed FieldReview.id
            (replaceRow FieldReview.id current.id (set current) d.fieldReviews) :=
          legal.table.ids.replaceRow (same current).1
        have there : set current ∈
            replaceRow FieldReview.id current.id (set current) d.fieldReviews :=
          after_mem_replaceRow member rfl
        have found := keyed.find? there
        rwa [(same current).1] at found

theorem recordDecision_computes (input : DecisionInput) (legal : LegalReviews d.fieldReviews) :
    (recordDecision input.rt input.now id input.action input.reviewer input.correctedValue
      input.note).Computes postgres context d (input.outcome id d) := by
  obtain ⟨rt, now, action, reviewer, correctedValue, note⟩ := input
  rw [DecisionInput.outcome]
  cases read : d.fieldReviews.find? (·.id = id) with
  | none => exact Prog.computes_bind_error (getFieldReview_missing read)
  | some current =>
      have checked := legal.checked current (List.mem_of_find?_eq_some read)
      refine Prog.computes_bind_ok (getFieldReview_computes read) ?_
      -- one update, guarded by what the action asks of the row
      have records : ∀ {texts : List String} {json : Option Json}
          {set : FieldReview → FieldReview}, (∀ r : FieldReview, r.SameKeys (set r)) →
          (ReviewCall.decide rt now id action reviewer correctedValue note).Does current
            (set current) →
          (Prog.bind (.execute (updateFieldReviewSql id texts json set)) fun _ =>
            getFieldReview id).Computes postgres context d
            ((⟨texts, json, set current⟩ : Revision).apply id d) :=
        fun same allowed => recordAction_computes legal read same (allowed.checked checked)
      dsimp only [DecisionInput.revision]
      by_cases reviewed : current.reviewState = .reviewed
      · rw [if_pos reviewed, if_pos reviewed]
        rfl
      rw [if_neg reviewed, if_neg reviewed]
      generalize strip (reviewer.getD "") = name
      cases action with
      | skip =>
          by_cases queued : current.reviewState = .routed
          · simp only [queued, ne_eq, not_true_eq_false, if_true, if_false]
            exact records (fun r => (r.skip_sameOrigin now).sameKeys) ⟨queued, rfl⟩
          · simp only [queued, ne_eq, not_false_eq_true, if_true, if_false]
            rfl
      | accept =>
          by_cases named : name = ""
          · simp only [named, reduceCtorEq, if_true, if_false]
            rfl
          · simp only [named, reduceCtorEq, if_true, if_false]
            exact records (fun r => (r.accept_sameOrigin now _ note).sameKeys) ⟨reviewed, _, rfl⟩
      | correct =>
          by_cases named : name = ""
          · simp only [named, reduceCtorEq, if_true, if_false]
            rfl
          simp only [named, reduceCtorEq, if_false]
          cases validated : validateCorrection rt current.field correctedValue with
          | error e => exact Prog.computes_bind_error rfl
          | ok value =>
              have kept : (Prog.ofExcept (.ok value) : Db Json).Computes postgres context d
                  (.ok (value, d)) := rfl
              refine Prog.computes_bind_ok kept ?_
              cases differs : value.pyEq current.modelValue with
              | true =>
                  simp only [except_ok_then, differs, if_true]
                  rfl
              | false =>
                  simp only [except_ok_then, differs, Bool.false_eq_true, if_false]
                  exact records (fun r => (r.correct_sameOrigin now value name note).sameKeys)
                    ⟨reviewed, value, name, differs, rfl⟩

/-- The call that the input stands for. -/
abbrev DecisionInput.program (input : DecisionInput) (id : Uuid) : Db FieldReview :=
  recordDecision input.rt input.now id input.action input.reviewer input.correctedValue input.note

/-- A decision that raises leaves the tables as they were, also inside its transaction. -/
theorem recordDecision_raised (legal : LegalReviews d.fieldReviews) (input : DecisionInput)
    {e : Exc} (raised : ((input.program id).serial postgres context ⟨d, false⟩).1 = .error e) :
    ((input.program id).serial postgres context ⟨d, false⟩).2.db = d := by
  have effect := @recordDecision_effect input.rt input.now id input.action input.reviewer
    input.correctedValue input.note context d legal
  rw [Prog.ends, ReviewCall.program, Prog.bind_eq, Prog.serial_bind, raised] at effect
  exact effect

/-- The call that the input stands for, among the calls that write review rows. -/
def DecisionInput.reviewCall (input : DecisionInput) (id : Uuid) : ReviewCall :=
  .decide input.rt input.now id input.action input.reviewer input.correctedValue input.note

theorem DecisionInput.run_of_outcome {next : FieldReview} {d' : Database}
    (legal : LegalReviews d.fieldReviews) (made : input.outcome id d = .ok (next, d')) :
    (input.reviewCall id).run context d = (.ok [id], d') := by
  have computes : (input.program id).Computes postgres context d _ :=
    recordDecision_computes input legal
  rw [made] at computes
  have returned : (input.program id).serial postgres context ⟨d, false⟩ = (.ok next, ⟨d', false⟩) :=
    computes
  simp [ReviewCall.run, DecisionInput.reviewCall, ReviewCall.program, Prog.serial_bind, returned]

/-- What the outcome of a decision is made of. -/
theorem DecisionInput.outcome_inv {next : FieldReview} {d' : Database}
    (made : input.outcome id d = .ok (next, d')) :
    ∃ current ∈ d.fieldReviews, current.id = id ∧
      (∃ revision, input.revision current = .ok revision ∧ revision.next = next) ∧
      d' = { d with fieldReviews := replaceRow FieldReview.id id next d.fieldReviews } := by
  rw [DecisionInput.outcome] at made
  cases found : d.fieldReviews.find? (·.id = id) with
  | none => simp [found] at made
  | some current =>
      rw [found] at made
      obtain ⟨revision, revised, applied⟩ := except_bind_ok.mp made
      have key : current.id = id := by simpa using List.find?_some found
      refine ⟨current, List.mem_of_find?_eq_some found, key, ?_⟩
      rw [Revision.apply] at applied
      split at applied
      · cases applied
      · cases applied
        exact ⟨⟨revision, revised, rfl⟩, rfl⟩

/-- The decided row is in the table. -/
theorem DecisionInput.outcome_mem {next : FieldReview} {d' : Database}
    (made : input.outcome id d = .ok (next, d')) : next ∈ d'.fieldReviews := by
  obtain ⟨current, member, key, _, rfl⟩ := DecisionInput.outcome_inv made
  exact after_mem_replaceRow member key

theorem DecisionInput.outcome_does {next : FieldReview} {d' : Database}
    (made : input.outcome id d = .ok (next, d')) :
    ∃ current ∈ d.fieldReviews, current.id = id ∧ (input.reviewCall id).Does current next := by
  obtain ⟨current, member, key, ⟨revision, revised, rfl⟩, _⟩ := DecisionInput.outcome_inv made
  exact ⟨current, member, key, DecisionInput.revision_does revised id⟩

theorem DecisionInput.outcome_confidence {out : FieldReview × Database}
    (made : input.outcome id d = .ok out) :
    ∃ current ∈ d.fieldReviews, current.id = id ∧ out.1.confidence = current.confidence := by
  obtain ⟨current, member, key, does⟩ := DecisionInput.outcome_does made
  exact ⟨current, member, key, does.sameOrigin.confidence⟩

/-- A decision decides its row, and a skip does not. -/
theorem reviewed_of_outcome {next : FieldReview} {d' : Database}
    (made : input.outcome id d = .ok (next, d')) :
    next.reviewState = .reviewed ↔ input.action ≠ .skip := by
  obtain ⟨current, _, _, does⟩ := DecisionInput.outcome_does made
  rw [DecisionInput.reviewCall] at does
  cases action : input.action with
  | skip =>
      rw [action] at does
      obtain ⟨queued, rfl⟩ := does
      simp [FieldReview.skip, queued]
  | accept =>
      rw [action] at does
      obtain ⟨_, _, rfl⟩ := does
      simp [FieldReview.accept]
  | correct =>
      rw [action] at does
      obtain ⟨_, _, _, _, rfl⟩ := does
      simp [FieldReview.correct]

end Program

end IncidentPipeline
