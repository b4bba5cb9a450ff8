import IncidentPipeline.Api.ReviewUi
import IncidentPipeline.Review.Decisions
import IncidentPipeline.Review.Surface
import IncidentPipeline.Worker.Progress

/-!
# One decision, two front ends

A decision can be posted as JSON or through the form of the page. Both end in
`record_decision`, with a value that the form reads back from its inputs. On tables in which
no reference dangles the two do the same to the tables and report the same.
-/

namespace IncidentPipeline.Api

open Python Tables Transactions

variable {d : Database} {env : RequestEnv} {id : Uuid}

/-! ### The posts as functions of the tables -/

/-- What a JSON body asks for. -/
def DecisionRequest.input (body : DecisionRequest) (env : RequestEnv) : DecisionInput :=
  ⟨env.rt, env.now, body.action, body.reviewer, body.correctedValue.getD .null, body.note⟩

theorem postDecision_eq (legal : LegalReviews d.fieldReviews) (body : DecisionRequest)
    (complete : body.action = .correct → body.correctedValue ≠ none) :
    postDecision env id body d =
      match (body.input env).outcome id d with
      | .ok (review, d') => (jsonReply env [review.confidence] (.fromReview review), d')
      | .error e => (httpError e, d) := by
  have computes : ((body.input env).program id).Computes postgres env.context d _ :=
    recordDecision_computes (body.input env) legal
  have transacts := computes.transact
  have here : ¬ (body.action = .correct ∧ body.correctedValue = none) :=
    fun h => complete h.1 h.2
  rw [postDecision, if_neg here]
  dsimp only [DecisionRequest.input] at transacts ⊢
  rw [transacts]
  cases DecisionInput.outcome _ id d <;> rfl

/-- The body that posts what is in a form of the field. -/
def submission (rt : Runtime) (field : String) (action : Action) (data : Dict String) :
    DecisionRequest where
  action := action
  reviewer := some (submitted data "reviewer")
  correctedValue :=
    match action with
    | .correct =>
        match formSpec rt field with
        | .ok spec => some (parse spec correctionRoot data)
        | .error _ => none
    | _ => none
  note := submittedNote data

/-- What the transaction of a post comes to. -/
def verdict (env : RequestEnv) (id : Uuid) (action : Action) (data : Dict String) (d : Database) :
    Except Exc (Verdict × Database) :=
  match (joinedReviews d).find? (·.review.id = id) with
  | none => .ok (.missing, d)
  | some row =>
      match submittedValue env.rt action row.item data with
      | .error e => .error e
      | .ok value =>
          match (DecisionInput.mk env.rt env.now action (some (submitted data "reviewer"))
              (value.getD .null) (submittedNote data)).outcome id d with
          | .ok (_, d') => .ok (.recorded, d')
          | .error e =>
              match e.cls with
              | .alreadyReviewedError => .ok (.rejected row.item e.message none 409, d)
              | .notRoutedError => .ok (.rejected row.item e.message none 409, d)
              | .invalidCorrectionError => .ok (.rejected row.item e.message value 422, d)
              | _ => .error e

theorem decideTransaction_transact (legal : LegalReviews d.fieldReviews) (action : Action)
    (data : Dict String) :
    (decideTransaction env id action data).transact postgres env.context d =
      Prog.commit d (verdict env id action data d) := by
  rw [Prog.transact, decideTransaction, Prog.bind_eq, Prog.serial_bind, Prog.serial_attempt,
    loadForReview_serial, verdict, loaded]
  dsimp only
  cases (joinedReviews d).find? (·.review.id = id) with
  | none => rfl
  | some row =>
      dsimp only
      rw [Prog.bind_eq, Prog.serial_bind]
      cases submittedValue env.rt action row.item data with
      | error e => rfl
      | ok value =>
          dsimp only [Prog.ofExcept, Prog.serial_ret]
          rw [Prog.bind_eq, Prog.serial_bind, Prog.serial_attempt]
          let input : DecisionInput := ⟨env.rt, env.now, action, some (submitted data "reviewer"),
            value.getD .null, submittedNote data⟩
          have computes : (input.program id).Computes postgres env.context d _ :=
            recordDecision_computes input legal
          cases outcome : input.outcome id d with
          | ok out =>
              rw [outcome] at computes
              have returned : (input.program id).serial postgres env.context ⟨d, false⟩ =
                (.ok out.1, ⟨out.2, false⟩) := computes
              dsimp only [input] at returned ⊢
              rw [returned]
              rfl
          | error e =>
              rw [outcome] at computes
              have stopped : ((input.program id).serial postgres env.context ⟨d, false⟩).1 =
                .error e := computes
              have untouched := recordDecision_raised legal input stopped
              dsimp only [input] at stopped untouched ⊢
              rw [stopped]
              dsimp only
              cases e.cls <;> simp [Prog.commit, Prog.raise, untouched]

/-! ### The two answers -/

/-- The score of the row is NaN. -/
def Unnumbered (id : Uuid) (d : Database) : Prop :=
  ∃ r ∈ d.fieldReviews, r.id = id ∧ r.confidence = ⊤

/-- What the page does where the other front end answers so. A refusal comes as a page with its
status and its text, except that the texts for a missing row differ. The page has no trouble with
NaN; the redirect may have some with the name. -/
def Mirrors (env : RequestEnv) (unnumbered : Prop) (data : Dict String) :
    Answer FieldReviewState → Answer UiResponse → Prop
  | .reply _, ui => ui = redirectNext env (blankIsUnset (submitted data "reviewer"))
  | .refused statusCode detail, ui =>
      ∃ page, ui = .reply (.page page) ∧ page.statusCode = statusCode ∧
        page.error = some (if statusCode = 404 then missingField else detail)
  | .failed e, ui => ui = .failed e ∨ env.nanError = some e ∧ unnumbered ∧
      ui = redirectNext env (blankIsUnset (submitted data "reviewer"))

section Page

variable {cfg : Settings} {cookie error : Option String} {correction : Option Json}
  {statusCode : Nat}

theorem reads_queueSize :
    reads env queueSize d = .ok (d.fieldReviews.countP (·.reviewState = .routed)) := by
  rw [reads, queueSize, serial_select]

/-- A page whose form can be bound is rendered. -/
theorem render_page {item : Option ReviewItem} {form : Option Bound}
    (bound : item.mapM (itemForm env.rt correction) = .ok form) :
    ∃ page, render cfg env cookie item error correction statusCode d = .reply (.page page) ∧
      page.statusCode = statusCode ∧ page.error = error ∧ page.form = form := by
  rw [render, reads_queueSize, bound]
  exact ⟨_, rfl, rfl, rfl, rfl⟩

theorem render_inv {item : Option ReviewItem} {form : Option Bound} {page : Page}
    (bound : item.mapM (itemForm env.rt correction) = .ok form)
    (answered : render cfg env cookie item error correction statusCode d = .reply (.page page)) :
    page.statusCode = statusCode ∧ page.form = form := by
  obtain ⟨shown, rendered, status, _, held⟩ :=
    @render_page d env cfg cookie error correction statusCode item form bound
  cases rendered.symm.trans answered
  exact ⟨status, held⟩

/-- The form of a row whose field is known. -/
theorem itemForm_eq {item : ReviewItem} {spec : Spec}
    (built : formSpec env.rt item.review.field = .ok spec) :
    (some item).mapM (itemForm env.rt correction) =
      .ok (some (bind env.rt spec correctionRoot (correction.getD item.review.modelValue))) := by
  simp only [Option.mapM_some, itemForm, built]
  rfl

end Page

section Agreement

variable {cfg : Settings} {cookie : Option String} {data : Dict String} {action : Action}
  {field : String} {spec : Spec}

theorem submission_complete (built : formSpec env.rt field = .ok spec) :
    (submission env.rt field action data).action = .correct →
      (submission env.rt field action data).correctedValue ≠ none := by
  rintro (rfl : action = .correct)
  simp [submission, built]

theorem submittedValue_eq {item : ReviewItem} (built : formSpec env.rt item.review.field = .ok spec) :
    submittedValue env.rt action item data =
      .ok (submission env.rt item.review.field action data).correctedValue := by
  cases action <;> simp [submittedValue, submission, built]

theorem posts_agree (reviewable : Reviewable d)
    (asked : actionOf (submitted data "action") = some action) (known : field ∈ recordFields)
    (about : ∀ r ∈ d.fieldReviews, r.id = id → r.field = field) :
    (decideField cfg env cookie id data d).2 =
        (postDecision env id (submission env.rt field action data) d).2 ∧
      Mirrors env (Unnumbered id d) data
        (postDecision env id (submission env.rt field action data) d).1
        (decideField cfg env cookie id data d).1 := by
  obtain ⟨_, _, _, _, spec, built, _⟩ := formSpec_of_mem env.rt known
  have find := joinedReviews_find reviewable.joined id
  rw [postDecision_eq reviewable.legal _ (submission_complete built), decideField, asked]
  dsimp only
  rw [decideTransaction_transact reviewable.legal, verdict]
  cases joined : (joinedReviews d).find? (·.review.id = id) with
  | none =>
      rw [joined] at find
      have missing : ((submission env.rt field action data).input env).outcome id d =
          .error (fieldReviewNotFound id) := by
        rw [DecisionInput.outcome, ← find]
        rfl
      rw [missing]
      refine ⟨rfl, ?_⟩
      have shown := @render_page d env cfg cookie (some missingField) none 404 none none rfl
      obtain ⟨page, rendered, status, error, _⟩ := shown
      exact ⟨page, rendered, status, error⟩
  | some row =>
      rw [joined] at find
      have member : row.review ∈ d.fieldReviews := List.mem_of_find?_eq_some find.symm
      have named : row.item.review.field = field := by
        have key : row.review.id = id := by simpa using List.find?_some joined
        exact about row.review member key
      rw [← named] at built
      dsimp only
      rw [← named, submittedValue_eq built]
      have scored : ∀ out, _ → _ := fun out => @DecisionInput.outcome_confidence
        ((submission env.rt row.item.review.field action data).input env) d id out
      have raises : ∀ e, _ → _ := fun e => @DecisionInput.outcome_raises
        ((submission env.rt row.item.review.field action data).input env) id d row.review e find.symm
      have bound := fun correction => @itemForm_eq env correction row.item spec built
      have input : (submission env.rt row.item.review.field action data).input env =
        ⟨env.rt, env.now, action, some (submitted data "reviewer"),
          (submission env.rt row.item.review.field action data).correctedValue.getD .null,
          submittedNote data⟩ := rfl
      rw [input] at scored raises ⊢
      dsimp only
      have kept : ∀ error correction statusCode, statusCode ≠ 404 → Mirrors env
          (Unnumbered id d) data (.refused statusCode error)
          (render cfg env cookie (some row.item) (some error) correction statusCode d) := by
        intro error correction statusCode here
        obtain ⟨page, rendered, status, shown, _⟩ := @render_page d env cfg cookie (some error)
          correction statusCode _ _ (bound correction)
        exact ⟨page, rendered, status, by simpa [here] using shown⟩
      generalize DecisionInput.outcome _ id d = outcome at scored raises ⊢
      cases outcome with
      | ok out =>
          refine ⟨rfl, ?_⟩
          dsimp only
          obtain replied | ⟨e, raised, nan, failed⟩ :=
            jsonReply_cases env [out.1.confidence] (FieldReviewState.fromReview out.1)
          · rw [replied]
            rfl
          · rw [failed]
            obtain ⟨current, there, key, same⟩ := scored out rfl
            exact .inr ⟨raised, ⟨current, there, key, same ▸ (List.mem_singleton.mp nan).symm⟩, rfl⟩
      | error e =>
          have there := raises e rfl
          dsimp only [httpError]
          cases class_ : e.cls with
          | fieldReviewNotFoundError => exact absurd class_ there
          | alreadyReviewedError => exact ⟨rfl, kept _ _ _ (by simp)⟩
          | notRoutedError => exact ⟨rfl, kept _ _ _ (by simp)⟩
          | invalidCorrectionError => exact ⟨rfl, kept _ _ _ (by simp)⟩
          | _ => exact ⟨rfl, .inl rfl⟩

/-- On whatever tables the service has come to, the form post does what the JSON post of what is
in the form does, and says so on a page. What goes wrong after the transaction, with the name on
the page or with NaN in JSON, goes wrong on one side only. -/
theorem front_ends_agree {maxAttempts : Nat} {w : ServiceWorld} (positive : 1 ≤ maxAttempts)
    (reachable : Reachable (serviceSystem maxAttempts) Database.empty w)
    (asked : actionOf (submitted data "action") = some action) (known : field ∈ recordFields)
    (about : ∀ r ∈ w.committed.fieldReviews, r.id = id → r.field = field) :
    (decideField cfg env cookie id data w.committed).2 =
        (postDecision env id (submission env.rt field action data) w.committed).2 ∧
      Mirrors env (Unnumbered id w.committed) data
        (postDecision env id (submission env.rt field action data) w.committed).1
        (decideField cfg env cookie id data w.committed).1 :=
  posts_agree (service_reviewable positive reachable) asked known about

/-- A header carries Latin-1, and JSON has no NaN. -/
def reviewing : RequestEnv where
  rt := .ascii
  now := 9
  context := ⟨extracted, []⟩
  cookieError name :=
    if name.toList.all (·.toNat < 256) then none else some (foreign "UnicodeEncodeError" "")
  nanError := some (foreign "ValueError" "Out of range float values are not JSON compliant")

theorem extracted_about :
    ∀ r ∈ extracted.fieldReviews, r.id = 3000 → r.field = "publisher_org" := by
  decide +kernel

theorem front_ends_agree_accepted :
    (decideField smallSettings reviewing none 3000 [("action", "accept"), ("reviewer", "ana")]
        extracted).2 =
      (postDecision reviewing 3000 ⟨.accept, some "ana", none, none⟩ extracted).2 :=
  (front_ends_agree (by decide) served_extracted rfl (by decide) extracted_about).1

end Agreement

/-! ### A rejected correction -/

section Rejected

variable {cfg : Settings} {cookie later : Option String} {data again fresh : Dict String}
  {page : Page} {bound : Bound}

/-- The form on the page of a rejected correction holds what was read from the form that was
posted. -/
theorem rejected_form (reviewable : Reviewable d)
    (asked : actionOf (submitted data "action") = some .correct)
    (answered : (decideField cfg env cookie id data d).1 = .reply (.page page))
    (rejected : page.statusCode = 422) (form : page.form = some bound) :
    ∃ r ∈ d.fieldReviews, r.id = id ∧ ∃ spec, formSpec env.rt r.field = .ok spec ∧
      bound = bind env.rt spec correctionRoot (parse spec correctionRoot data) := by
  rw [decideField, asked] at answered
  dsimp only at answered
  rw [decideTransaction_transact reviewable.legal, verdict] at answered
  have find := joinedReviews_find reviewable.joined id
  cases joined : (joinedReviews d).find? (·.review.id = id) with
  | none =>
      rw [joined] at answered
      have status :=
        (@render_inv d env cfg cookie (some missingField) none 404 none none page rfl answered).1
      omega
  | some row =>
      rw [joined] at find answered
      have member : row.review ∈ d.fieldReviews := List.mem_of_find?_eq_some find.symm
      have key : row.review.id = id := by simpa using List.find?_some joined
      obtain ⟨spec, built⟩ := reviewable.formSpec env.rt member
      dsimp only at answered
      have value : submittedValue env.rt .correct row.item data =
          .ok (some (parse spec correctionRoot data)) := by
        have built' : formSpec env.rt row.item.review.field = .ok spec := built
        simp [submittedValue, built']
      rw [value] at answered
      refine ⟨row.review, member, key, spec, built, ?_⟩
      have inv : ∀ {error correction statusCode}, render cfg env cookie (some row.item) error
          correction statusCode d = .reply (.page page) → page.statusCode = statusCode ∧ page.form =
            some (bind env.rt spec correctionRoot (correction.getD row.review.modelValue)) :=
        fun answered => render_inv (itemForm_eq built) answered
      dsimp only at answered
      generalize DecisionInput.outcome _ id d = outcome at answered
      cases outcome with
      | ok out => exact absurd answered (redirectNext_ne_page _)
      | error e =>
          dsimp only at answered
          cases class_ : e.cls with
          | invalidCorrectionError =>
              rw [class_] at answered
              cases form.symm.trans (inv answered).2
              rfl
          | alreadyReviewedError =>
              rw [class_] at answered
              have status := (inv answered).1
              omega
          | notRoutedError =>
              rw [class_] at answered
              have status := (inv answered).1
              omega
          | _ =>
              rw [class_] at answered
              cases answered

/-- What a post does depends on the form through the value that is read from it. -/
theorem decideField_congr (reviewable : Reviewable d)
    (action : submitted again "action" = submitted fresh "action")
    (reviewer : submitted again "reviewer" = submitted fresh "reviewer")
    (note : submitted again "note" = submitted fresh "note")
    (value : ∀ r ∈ d.fieldReviews, r.id = id → ∀ spec, formSpec env.rt r.field = .ok spec →
      parse spec correctionRoot again = parse spec correctionRoot fresh) :
    decideField cfg env cookie id again d = decideField cfg env cookie id fresh d := by
  rw [decideField, decideField, action]
  cases actionOf (submitted fresh "action") with
  | none => rfl
  | some asked =>
      dsimp only
      have same : verdict env id asked again d = verdict env id asked fresh d := by
        have find := joinedReviews_find reviewable.joined id
        rw [verdict, verdict]
        cases joined : (joinedReviews d).find? (·.review.id = id) with
        | none => rfl
        | some row =>
            rw [joined] at find
            have member : row.review ∈ d.fieldReviews := List.mem_of_find?_eq_some find.symm
            have key : row.review.id = id := by simpa using List.find?_some joined
            obtain ⟨spec, built⟩ := reviewable.formSpec env.rt member
            have built' : formSpec env.rt row.item.review.field = .ok spec := built
            have read : submittedValue env.rt asked row.item again =
                submittedValue env.rt asked row.item fresh := by
              simp [submittedValue, built', value row.review member key spec built]
            simp only [read, submittedNote, reviewer, note]
      rw [decideTransaction_transact reviewable.legal, decideTransaction_transact reviewable.legal,
        same, reviewer]

instance (name key : String) : Decidable (Under name key) := inferInstanceAs (Decidable (_ ∨ _))

/-- The correction from one form, and what stands beside it in another. -/
def refilled (correction beside : Dict String) : Dict String :=
  correction.filter (fun c => Under correctionRoot c.1) ++
    beside.filter fun c => ¬ Under correctionRoot c.1

theorem get?_filter_key {α : Type} {p : String → Bool} (d : Dict α) (key : String) :
    Dict.get? (d.filter (p ·.1)) key = if p key then d.get? key else none := by
  induction d with
  | nil => simp
  | cons entry rest ih =>
      obtain ⟨k, v⟩ := entry
      by_cases same : k = key
      · subst same
        cases kept : p k <;> simp [kept, ih]
      · cases kept : p k <;> simp [kept, ih, Dict.get?_cons, same]

theorem get?_refilled (correction beside : Dict String) (key : String) :
    (refilled correction beside).get? key =
      if Under correctionRoot key then correction.get? key else beside.get? key := by
  have first := @get?_filter_key _ (fun key => Under correctionRoot key) correction key
  have second := @get?_filter_key _ (fun key => ¬ Under correctionRoot key) beside key
  rw [Dict.get?] at first second
  rw [refilled, Dict.get?, List.lookup_append, first, second]
  by_cases under : Under correctionRoot key <;> simp [under]

theorem submitted_refilled (correction beside : Dict String) {name : String}
    (outside : ¬ Under correctionRoot name) :
    submitted (refilled correction beside) name = submitted beside name := by
  rw [submitted, submitted, get?_refilled, if_neg outside]

/-- A rejected correction can be posted again from the page that it is answered with: whatever has
happened since, and whoever posts it with whatever note, that does what posting the first correction
would do now. -/
theorem rejected_form_stands {maxAttempts : Nat} {v w : ServiceWorld} {labels : List (Label RowOp)}
    (positive : 1 ≤ maxAttempts)
    (reachable : Reachable (serviceSystem maxAttempts) Database.empty v)
    (asked : actionOf (submitted data "action") = some .correct)
    (answered : (decideField cfg env cookie id data v.committed).1 = .reply (.page page))
    (rejected : page.statusCode = 422) (form : page.form = some bound)
    (run : Run (serviceSystem maxAttempts) v labels w)
    (shown : ∀ key, Under correctionRoot key → again.get? key = (encode env.rt bound).get? key)
    (now : Time) (context : Context) :
    decideField cfg { env with now := now, context := context } later id again w.committed =
      decideField cfg { env with now := now, context := context } later id (refilled data again)
        w.committed := by
  obtain ⟨r, member, key, spec, built, rfl⟩ :=
    rejected_form (service_reviewable positive reachable) asked answered rejected form
  apply decideField_congr (service_reviewable positive (reachable.run run))
    (submitted_refilled data again (by decide)).symm
    (submitted_refilled data again (by decide)).symm
    (submitted_refilled data again (by decide)).symm
  intro s there same spec' built'
  have field := service_keeps_field positive reachable run member there (same.trans key.symm)
  rw [field] at built'
  cases built.symm.trans built'
  have held := parse_encode_bind env.rt spec correctionRoot (formSpec_wellFormed built)
    (stable_parse spec correctionRoot data)
  rw [parse_congr spec shown, held]
  refine parse_congr spec fun key under => ?_
  rw [get?_refilled, if_pos under]

/-- What a reviewer submits beside the inputs of the value. -/
def signed (inputs : Dict String) : Dict String :=
  ("action", "correct") :: ("reviewer", "ana") :: ("note", "as in the text") :: inputs

theorem beside_root {key : String} (under : Under correctionRoot key) :
    "action" ≠ key ∧ "reviewer" ≠ key ∧ "note" ≠ key := by
  unfold Under at under
  refine ⟨?_, ?_, ?_⟩ <;>
  · rintro rfl
    revert under
    decide

theorem signed_get? {key : String} (under : Under correctionRoot key) (inputs : Dict String) :
    (signed inputs).get? key = inputs.get? key := by
  simp [signed, Dict.get?_cons, beside_root under]

/-- A correction without a name is rejected, and posted again with one and a note. -/
theorem rejected_form_stands_unnamed :
    ∃ page bound, (decideField smallSettings reviewing none 3000
        [("action", "correct"), ("v", "Cloudflare")] extracted).1 = .reply (.page page) ∧
      page.form = some bound ∧
        decideField smallSettings reviewing none 3000 (signed (encode .ascii bound)) extracted =
          decideField smallSettings reviewing none 3000
            (refilled [("action", "correct"), ("v", "Cloudflare")] (signed (encode .ascii bound)))
            extracted := by
  obtain ⟨page, answered, status, bound, form⟩ : ∃ page, (decideField smallSettings reviewing none
      3000 [("action", "correct"), ("v", "Cloudflare")] extracted).1 = .reply (.page page) ∧
      page.statusCode = 422 ∧ ∃ bound, page.form = some bound := ⟨_, rfl, rfl, _, rfl⟩
  refine ⟨page, bound, answered, form, ?_⟩
  exact rejected_form_stands (by decide) served_extracted rfl answered status form .refl
    (fun key under => signed_get? under _) 9 ⟨extracted, []⟩

end Rejected

end IncidentPipeline.Api
