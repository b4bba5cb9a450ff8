import IncidentPipeline.Api.Decisions
import IncidentPipeline.Api.Requests
import IncidentPipeline.Review.Ledger

/-!
# What the handlers enter in the ledger

A post enters the decision that it asks for if its transaction succeeds, and nothing otherwise.
The other handlers enter nothing.
-/

namespace IncidentPipeline.Api

open Python Tables Transactions

variable {d : Database} {id : Uuid}

variable {cfg : Settings} {env : RequestEnv} {cookie : Option String} {data : Dict String}

theorem httpError_not_reply {α : Type} (e : Exc) (body : α) : httpError e ≠ .reply body := by
  rw [httpError]
  cases e.cls <;> simp

/-- A post succeeds with the decision that it asks for, or it does nothing. -/
theorem postDecision_cases (legal : LegalReviews d.fieldReviews) (body : DecisionRequest) :
    (postDecision env id body d).2 = d ∧
        (∀ state, (postDecision env id body d).1 ≠ .reply state) ∨
      ∃ next, (body.input env).outcome id d = .ok (next, (postDecision env id body d).2) ∧
        (postDecision env id body d).1 =
          jsonReply env [next.confidence] (.fromReview next) := by
  by_cases incomplete : body.action = .correct ∧ body.correctedValue = none
  · simp [postDecision, incomplete]
  · rw [postDecision_eq legal body fun h missing => incomplete ⟨h, missing⟩]
    cases made : (body.input env).outcome id d with
    | error e => exact .inl ⟨rfl, httpError_not_reply e⟩
    | ok out => exact .inr ⟨out.1, rfl, rfl⟩

theorem render_not_redirect {item : Option ReviewItem} {error : Option String}
    {correction : Option Json} {statusCode : Nat} (named : Option String) :
    render cfg env cookie item error correction statusCode d ≠ .reply (.redirect named) := by
  rw [render]
  split <;> simp

/-- So does a form. -/
theorem decideField_cases (legal : LegalReviews d.fieldReviews) :
    (decideField cfg env cookie id data d).2 = d ∧
        (∀ named, (decideField cfg env cookie id data d).1 ≠ .reply (.redirect named)) ∨
      ∃ (input : DecisionInput) (next : FieldReview),
        actionOf (submitted data "action") = some input.action ∧
        input.outcome id d = .ok (next, (decideField cfg env cookie id data d).2) ∧
        (decideField cfg env cookie id data d).1 =
          redirectNext env (blankIsUnset (submitted data "reviewer")) := by
  rw [decideField]
  cases actionOf (submitted data "action") with
  | none =>
      refine .inl ⟨rfl, ?_⟩
      dsimp only
      exact render_not_redirect
  | some action =>
      dsimp only
      rw [decideTransaction_transact legal, verdict]
      cases (joinedReviews d).find? (·.review.id = id) with
      | none =>
          refine .inl ⟨rfl, ?_⟩
          dsimp only [Prog.commit]
          exact render_not_redirect
      | some row =>
          dsimp only
          cases submittedValue env.rt action row.item data with
          | error e => exact .inl ⟨rfl, by simp [Prog.commit]⟩
          | ok value =>
              dsimp only
              let input : DecisionInput := ⟨env.rt, env.now, action,
                some (submitted data "reviewer"), value.getD .null, submittedNote data⟩
              cases made : input.outcome id d with
              | ok out =>
                  exact .inr ⟨input, out.1, rfl, made, rfl⟩
              | error e =>
                  dsimp only
                  refine .inl ?_
                  cases e.cls <;> dsimp only [Prog.commit] <;>
                    exact ⟨rfl, by simp [render_not_redirect]⟩

/-- A pass decides nothing. -/
theorem advances_postRoute (reviewable : Reviewable d) :
    Advances d [] (postRoute cfg env d).2 := by
  let call : ReviewCall :=
    .route cfg.collation env.now cfg.reviewConfidenceFloor (cfg.reviewBudget.map Int.ofNat)
  have ended : (postRoute cfg env d).2 = d ∨
      ∃ own, Effect call own d (postRoute cfg env d).2 := by
    have effective : call.program.ends postgres env.context (Effective call d) ⟨d, false⟩ :=
      call.effect reviewable.legal
    rw [Prog.ends, ReviewCall.program, Prog.bind_eq, Prog.serial_bind] at effective
    rw [postRoute, Prog.transact]
    generalize Prog.serial postgres env.context _ ⟨d, false⟩ = out at effective ⊢
    obtain ⟨result, st⟩ := out
    cases result with
    | error e => exact .inl rfl
    | ok routed =>
        have effect : Effect call _ d st.db := effective
        dsimp only
        cases st.aborted with
        | true => exact .inl rfl
        | false => exact .inr ⟨_, effect⟩
  obtain same | ⟨own, effect⟩ := ended
  · rw [same]
    exact .refl reviewable
  · have versions := versions_of_effect effect reviewable.legal rfl
    refine ⟨versions.reviewable reviewable, ?_, fun r => versions.keeps_decided reviewable.legal,
      versions.confidences⟩
    rw [List.append_nil]
    apply versions.ledger_of_quiet reviewable.legal
    rintro r s ⟨_, rfl⟩
    simp [FieldReview.route]

/-- A registration touches other tables. -/
theorem advances_postSource (sourceId jobId : Uuid) (url : String) (reviewable : Reviewable d) :
    Advances d [] (postSource env sourceId jobId url d).2 := by
  have writes : (registerSource ⟨env.now, sourceId, jobId⟩ url).Writes fun o =>
      (∃ row, o = .insertSource row) ∨ ∃ row, o = .insertJob row := by
    refine Prog.writes_bind (Prog.writes_execute ?_) fun _ =>
      Prog.writes_bind (enqueue_writes ?_) fun _ => trivial
    · intro context d reply ops answer o ho
      cases answer
      exact .inl ⟨_, List.mem_singleton.mp ho⟩
    · exact fun row => .inr ⟨row, rfl⟩
  let Registered (e : Database) : Prop :=
    ∃ sources jobs, e = { d with sources := sources, jobs := jobs }
  have ended : Registered ((registerSource ⟨env.now, sourceId, jobId⟩ url).transact postgres
      env.context d).2 := by
    refine writes.transact_keeps ?_ ⟨d.sources, d.jobs, rfl⟩
    rintro o a b kind applied ⟨sources, jobs, rfl⟩
    obtain ⟨_, rfl⟩ := RowOp.apply_eq_ok.mp applied
    obtain ⟨row, rfl⟩ | ⟨row, rfl⟩ := kind
    · exact ⟨_, _, rfl⟩
    · exact ⟨_, _, rfl⟩
  obtain ⟨sources, jobs, same⟩ : Registered (postSource env sourceId jobId url d).2 := by
    rw [postSource]
    generalize Prog.transact postgres env.context _ d = out at ended ⊢
    obtain ⟨_ | _, d'⟩ := out <;> exact ended
  rw [same]
  obtain ⟨⟨extractions, documents, extractionOf, documentOf⟩, legal, fields⟩ := reviewable
  exact ⟨⟨⟨extractions, documents, extractionOf, documentOf⟩, legal, fields⟩, by
    rw [List.append_nil]; exact List.Perm.refl _, fun _ member _ => member,
    fun s member => ⟨s, member, rfl⟩⟩

end IncidentPipeline.Api
