import IncidentPipeline.Api.Ledger

/-!
# The closed loop

The requests that a process serves, one after the other. What is answered with success is what
`/corrections` lists in the end, as long as no answer fails after its transaction; what the gate
turns away has no part in it.
-/

namespace IncidentPipeline.Api

open Python Tables Transactions Machines

variable {d d' : Database} {id : Uuid} {site : Site}

/-! ### The ledger of a run -/

/-- The rows that are decided if the answer is true. -/
def decided : Incoming × Answer Body → List Uuid
  | (⟨_, _, .postDecision id body⟩, .reply _) => decidedBy body.action id
  | (⟨_, _, .decideField _ id data⟩, .reply (.ui (.redirect _))) =>
      ((actionOf (submitted data "action")).map fun action => decidedBy action id).getD []
  | _ => []

theorem decided_refused (incoming : Incoming) (statusCode : Nat) (detail : String) :
    decided (incoming, .refused statusCode detail) = [] := by
  obtain ⟨env, credentials, request⟩ := incoming
  cases request <;> rfl

theorem decided_failed (incoming : Incoming) (e : Exc) :
    decided (incoming, .failed e) = [] := by
  obtain ⟨env, credentials, request⟩ := incoming
  cases request <;> rfl

theorem Answer.map_reply {α β : Type} {f : α → β} {answer : Answer α} {body : β}
    (replies : answer.map f = .reply body) : ∃ a, answer = .reply a ∧ body = f a := by
  cases answer with
  | reply a =>
      cases replies
      exact ⟨a, rfl, rfl⟩
  | refused => cases replies
  | failed => cases replies

/-- The name that comes with a form fits into a cookie. -/
def Incoming.Carries (incoming : Incoming) : Prop :=
  ∀ cookie id data, incoming.request = .decideField cookie id data →
    ∀ name ∈ blankIsUnset (submitted data "reviewer"), incoming.env.cookieError name = none

theorem redirectNext_of_carries {env : RequestEnv} {reviewer : Option String}
    (carries : ∀ name ∈ reviewer, env.cookieError name = none) :
    redirectNext env reviewer = .reply (.redirect reviewer) := by
  rw [redirectNext]
  cases reviewer with
  | none => rfl
  | some name => rw [Option.bind_some, carries name rfl]

/-- What one request does to the ledger is what its answer says. -/
theorem handle_advances (reviewable : Reviewable d) (numbers : Numbers d) {env : RequestEnv}
    {credentials : Option Credentials} {request : Request}
    (carries : Incoming.Carries ⟨env, credentials, request⟩) :
    Advances d (decided (⟨env, credentials, request⟩, (site.handle env request d).1))
      (site.handle env request d).2 := by
  cases request with
  | postSource sourceId jobId url => exact advances_postSource sourceId jobId url reviewable
  | postRoute => exact advances_postRoute reviewable
  | postDecision id body =>
      simp only [Site.handle, Prod.map_fst, Prod.map_snd]
      obtain ⟨same, silent⟩ | ⟨next, made, replied⟩ :=
        @postDecision_cases d id env reviewable.legal body
      · rw [same]
        cases answer : (postDecision env id body d).1 with
        | reply state => exact absurd answer (silent state)
        | refused => exact .refl reviewable
        | failed => exact .refl reviewable
      · have advances := advances_of_outcome reviewable made
        have number : ⊤ ∉ [next.confidence] := fun nan =>
          advances.numbers numbers next (DecisionInput.outcome_mem made)
            (List.mem_singleton.mp nan).symm
        rw [replied, jsonReply_of_numbers number]
        exact advances
  | decideField cookie id data =>
      simp only [Site.handle, Prod.map_fst, Prod.map_snd]
      obtain ⟨same, silent⟩ | ⟨input, next, asked, made, replied⟩ :=
        @decideField_cases d id site.cfg env cookie data reviewable.legal
      · rw [same]
        cases answer : (decideField site.cfg env cookie id data d).1 with
        | reply response =>
            cases response with
            | page => exact .refl reviewable
            | redirect named => exact absurd answer (silent named)
        | refused => exact .refl reviewable
        | failed => exact .refl reviewable
      · rw [replied, redirectNext_of_carries (carries cookie id data rfl)]
        simp only [Answer.map, decided, asked, Option.map_some, Option.getD_some]
        exact advances_of_outcome reviewable made
  | _ => exact .refl reviewable

/-- Behind the gate as before it. -/
theorem respond_advances (reviewable : Reviewable d) (numbers : Numbers d) {incoming : Incoming}
    (carries : incoming.Carries) :
    Advances d (decided (incoming, (site.respond incoming d).1)) (site.respond incoming d).2 := by
  rw [Site.respond]
  cases site.gate incoming with
  | reply => exact handle_advances reviewable numbers carries
  | refused statusCode detail =>
      rw [decided_refused]
      exact .refl reviewable
  | failed e =>
      rw [decided_failed]
      exact .refl reviewable

/-- A run adds to the ledger what its answers say. -/
theorem run_advances (reviewable : Reviewable d) (numbers : Numbers d) {requests : List Incoming}
    (carry : ∀ incoming ∈ requests, incoming.Carries) :
    Advances d ((exchanges site.respond requests d).flatMap decided)
      (run site.respond requests d).2 := by
  have step : ∀ (incoming : Incoming) e, incoming.Carries → Reviewable e ∧ Numbers e → _ :=
    fun incoming e carries h => @respond_advances e site h.1 h.2 incoming carries
  have kept : ∀ (i : Incoming) e, i.Carries → Reviewable e ∧ Numbers e → _ := fun i e c h =>
    And.intro (step i e c h).reviewable ((step i e c h).numbers h.2)
  refine ⟨(run_keeps kept requests carry ⟨reviewable, numbers⟩).1,
    run_ledger kept (fun i e c h => (step i e c h).ledger) requests carry ⟨reviewable, numbers⟩,
    fun r member closed => ?_, ?_⟩
  · have stays := @run_keeps _ _ _ site.respond
      (fun e => (Reviewable e ∧ Numbers e) ∧ r ∈ e.fieldReviews) Incoming.Carries
      (fun i e c h => ⟨kept i e c h.1, (step i e c h.1).keeps r h.2 closed⟩) requests carry d
      ⟨⟨reviewable, numbers⟩, member⟩
    exact stays.2
  · have old := @run_keeps _ _ _ site.respond
      (fun e => (Reviewable e ∧ Numbers e) ∧
        ∀ s ∈ e.fieldReviews, ∃ r ∈ d.fieldReviews, s.confidence = r.confidence)
      Incoming.Carries (fun i e c h => ⟨kept i e c h.1, fun s member => ?_⟩) requests carry d
      ⟨⟨reviewable, numbers⟩, fun s member => ⟨s, member, rfl⟩⟩
    · exact old.2
    · obtain ⟨r, there, same⟩ := (step i e c h.1).confidences s member
      obtain ⟨first, before, equal⟩ := h.2 r there
      exact ⟨first, before, same.trans equal⟩

/-- A decision that has been reported stands. -/
def Stands (exchange : Incoming × Answer Body) (d : Database) : Prop :=
  ∀ state, exchange.2 = .reply (.decision state) → state.reviewState = .reviewed →
    ∃ r ∈ d.fieldReviews, .fromReview r = state

theorem respond_stands (reviewable : Reviewable d) (incoming : Incoming) :
    Stands (incoming, (site.respond incoming d).1) (site.respond incoming d).2 := by
  obtain ⟨env, credentials, request⟩ := incoming
  intro state answered decided
  rw [Site.respond] at answered ⊢
  cases opened : site.gate ⟨env, credentials, request⟩ with
  | refused => simp [opened] at answered
  | failed => simp [opened] at answered
  | reply =>
      simp only [opened] at answered ⊢
      cases request with
      | postDecision id body =>
          simp only [Site.handle, Prod.map_fst, Prod.map_snd] at answered ⊢
          obtain ⟨state', replied, same⟩ := Answer.map_reply answered
          cases same
          obtain ⟨_, silent⟩ | ⟨next, made, replied'⟩ :=
            @postDecision_cases d id env reviewable.legal body
          · exact absurd replied (silent state)
          · refine ⟨next, DecisionInput.outcome_mem made, ?_⟩
            obtain told | ⟨e, _, _, failed⟩ :=
              jsonReply_cases env [next.confidence] (FieldReviewState.fromReview next)
            · cases (replied'.trans told).symm.trans replied
              rfl
            · cases (replied'.trans failed).symm.trans replied
      | health => cases answered
      | _ =>
          simp only [Site.handle, Prod.map_fst] at answered
          obtain ⟨_, _, same⟩ := Answer.map_reply answered
          cases same

/-! ### What is listed -/

/-- An item of the listing says what the state of a row says. -/
structure ReviewedFieldOut.Tells (item : ReviewedFieldOut) (state : FieldReviewState) : Prop where
  id : item.id = state.id
  extractionId : item.extractionId = state.extractionId
  field : item.field = state.field
  confidence : item.confidence = state.confidence
  modelValue : item.modelValue = state.modelValue
  decision : state.decision = some item.decision
  correctedValue : item.correctedValue = state.correctedValue
  reviewer : state.reviewer = some item.reviewer
  reviewerNote : item.reviewerNote = state.reviewerNote
  reviewedAt : state.reviewedAt = some item.reviewedAt
  routedAt : item.routedAt = state.routedAt

/-- A reviewed row has what the response model wants. -/
theorem fromReviewed_reviewed {row : JoinedReview} (checked : row.review.Checked)
    (closed : row.review.reviewState = .reviewed) :
    ∃ item, ReviewedFieldOut.fromReviewed row.reviewed = .ok item ∧
      item.Tells (.fromReview row.review) := by
  obtain ⟨decision, reviewer, reviewedAt⟩ := (FieldReview.checked_iff.mp checked).1.mp closed
  obtain ⟨decision, hasDecision⟩ := Option.isSome_iff_exists.mp decision
  obtain ⟨reviewer, hasReviewer⟩ := Option.isSome_iff_exists.mp reviewer
  obtain ⟨reviewedAt, hasTime⟩ := Option.isSome_iff_exists.mp reviewedAt
  simp only [ReviewedFieldOut.fromReviewed, JoinedReview.reviewed, hasDecision, hasReviewer, hasTime]
  exact ⟨_, rfl, rfl, rfl, rfl, rfl, rfl, hasDecision, rfl, hasReviewer, rfl, hasTime, rfl⟩

/-- Without filters the listing ranges over the decided rows. -/
theorem reviewedRows_perm (joined : Joined d) (collation : Collation) :
    ((reviewedRows collation none none d).map JoinedReview.review).Perm
      (d.fieldReviews.filter (·.reviewState = .reviewed)) := by
  have sorted := (List.mergeSort_perm ((joinedReviews d).filter (·.review.listed none none))
    fun a b => reviewedLe collation a.review b.review).map JoinedReview.review
  rw [reviewedRows]
  refine sorted.trans ?_
  have same : ((joinedReviews d).filter (·.review.listed none none)).map JoinedReview.review =
      d.fieldReviews.filter (·.reviewState = .reviewed) := by
    rw [← joined.joinedReviews, List.filter_map]
    simp [FieldReview.listed, Function.comp_def]
  rw [same]

/-- What can be made of every row can be made of the list. -/
theorem exists_mapM {ε α β : Type} {f : α → Except ε β} {R : α → β → Prop} {xs : List α}
    (each : ∀ x ∈ xs, ∃ y, f x = .ok y ∧ R x y) :
    ∃ ys, xs.mapM f = .ok ys ∧ List.Forall₂ R xs ys := by
  induction xs with
  | nil => exact ⟨[], rfl, .nil⟩
  | cons x rest ih =>
      obtain ⟨y, made, related⟩ := each x List.mem_cons_self
      obtain ⟨ys, later, all⟩ := ih fun z member => each z (List.mem_cons_of_mem _ member)
      refine ⟨y :: ys, ?_, .cons related all⟩
      rw [List.mapM_cons, made, except_ok_then, later]
      rfl

theorem exists_of_forall₂ {α β : Type} {R : α → β → Prop} {xs : List α} {ys : List β}
    (all : List.Forall₂ R xs ys) : ∀ x ∈ xs, ∃ y ∈ ys, R x y := by
  induction all with
  | nil => simp
  | cons related _ ih =>
      rw [List.forall_mem_cons]
      refine ⟨⟨_, List.mem_cons_self, related⟩, fun x member => ?_⟩
      obtain ⟨y, there, holds⟩ := ih x member
      exact ⟨y, List.mem_cons_of_mem _ there, holds⟩

/-- A page that is long enough lists every decided row, once, as it is. -/
theorem getCorrections_lists (cfg : Settings) (env : RequestEnv) (reviewable : Reviewable d)
    (numbers : Numbers d) {page : QueryPage 10000} (first : page.offset = 0)
    (long : (decidedIds d).length ≤ page.limit) :
    ∃ response, getCorrections cfg env none none page d = .reply response ∧
      (response.items.map ReviewedFieldOut.id).Perm (decidedIds d) ∧
      ∀ r ∈ d.fieldReviews, r.reviewState = .reviewed →
        ∃ item ∈ response.items, item.Tells (.fromReview r) := by
  have perm := reviewedRows_perm reviewable.joined cfg.collation
  have size : (reviewedRows cfg.collation none none d).length ≤ page.limit := by
    rw [← List.length_map JoinedReview.review, perm.length_eq, ← List.length_map FieldReview.id]
    exact long
  have listed : reads env (listReviewed cfg.collation none none page.limit page.offset) d =
      .ok ((reviewedRows cfg.collation none none d).map JoinedReview.reviewed) := by
    rw [reads, listReviewed, Option.toList_none, serial_select, first, List.drop_zero,
      List.take_of_length_le size]
  have shown : ∀ row ∈ reviewedRows cfg.collation none none d, ∃ item,
      ReviewedFieldOut.fromReviewed row.reviewed = .ok item ∧
        item.Tells (.fromReview row.review) := by
    intro row member
    obtain ⟨there, closed⟩ := List.mem_filter.mp (perm.subset (List.mem_map_of_mem member))
    exact fromReviewed_reviewed (reviewable.legal.checked _ there) (by simpa using closed)
  obtain ⟨items, made, told⟩ := exists_mapM shown
  have mapped : ((reviewedRows cfg.collation none none d).map JoinedReview.reviewed).mapM
      ReviewedFieldOut.fromReviewed = .ok items := by
    rw [List.mapM_map]
    exact made
  have scored : ⊤ ∉ items.map ReviewedFieldOut.confidence := by
    intro nan
    obtain ⟨item, listed, top⟩ := List.mem_map.mp nan
    obtain ⟨row, shownRow, tells⟩ := exists_of_forall₂ told.flip item listed
    obtain ⟨there, _⟩ := List.mem_filter.mp (perm.subset (List.mem_map_of_mem shownRow))
    exact numbers row.review there (tells.confidence.symm.trans top)
  refine ⟨⟨none, ((reviewedRows cfg.collation none none d).map JoinedReview.reviewed).length, items⟩,
    by simp only [getCorrections, listed, mapped, jsonReply_of_numbers scored], ?_,
    fun r member closed => ?_⟩
  · have ids : List.Forall₂ Eq ((reviewedRows cfg.collation none none d).map (·.review.id))
        (items.map ReviewedFieldOut.id) := by
      rw [List.forall₂_map_left_iff, List.forall₂_map_right_iff]
      exact told.imp fun _ _ tells => tells.id.symm
    rw [List.forall₂_eq_eq_eq] at ids
    have decided := perm.map FieldReview.id
    rw [List.map_map] at decided
    rw [← ids]
    exact decided
  · have there : r ∈ (reviewedRows cfg.collation none none d).map JoinedReview.review :=
      perm.symm.subset (List.mem_filter.mpr ⟨member, by simpa using closed⟩)
    obtain ⟨row, hrow, rfl⟩ := List.mem_map.mp there
    exact exists_of_forall₂ told row hrow

/-- Whatever requests are served, in whatever order, the listing at the end holds the decisions of
before and those that were answered with success, each once; and a decision that was reported is
listed as it was reported. No score is NaN, and every name fits into a cookie. -/
theorem corrections_close_the_loop {maxAttempts : Nat} {w : ServiceWorld}
    (positive : 1 ≤ maxAttempts)
    (reachable : Reachable (serviceSystem maxAttempts) Database.empty w)
    (numbers : Numbers w.committed) {requests : List Incoming}
    (carry : ∀ incoming ∈ requests, incoming.Carries) (env : RequestEnv)
    {page : QueryPage 10000} (first : page.offset = 0)
    (long : (decidedIds w.committed).length +
      ((exchanges site.respond requests w.committed).flatMap decided).length ≤ page.limit) :
    ∃ response, getCorrections site.cfg env none none page
        (run site.respond requests w.committed).2 = .reply response ∧
      (response.items.map ReviewedFieldOut.id).Perm
        (decidedIds w.committed ++ (exchanges site.respond requests w.committed).flatMap decided) ∧
      (response.items.map ReviewedFieldOut.id).Nodup ∧
      ∀ incoming state, (incoming, .reply (.decision state)) ∈
          exchanges site.respond requests w.committed → state.reviewState = .reviewed →
        ∃ item ∈ response.items, item.Tells state := by
  have start := service_reviewable positive reachable
  have advances := @run_advances _ site start numbers requests carry
  have size := advances.ledger.length_eq
  rw [List.length_append] at size
  obtain ⟨response, replied, listed, told⟩ :=
    getCorrections_lists site.cfg env advances.reviewable (advances.numbers numbers) first
      (size ▸ long)
  have step : ∀ (i : Incoming) e, i.Carries → Reviewable e ∧ Numbers e → _ := fun i e c h =>
    @respond_advances e site h.1 h.2 i c
  have stands := @run_remembers _ _ _ site.respond (fun e => Reviewable e ∧ Numbers e)
    Incoming.Carries (fun i e c h => ⟨(step i e c h).reviewable, (step i e c h).numbers h.2⟩) Stands
    (fun i e _ h => respond_stands h.1 i) (fun x i e c h stands state answered closed => ?_) requests
    carry w.committed ⟨start, numbers⟩
  · refine ⟨response, replied, listed.trans advances.ledger, ?_, fun incoming state member closed =>
      ?_⟩
    · exact listed.nodup_iff.mpr (decidedIds_nodup advances.reviewable.legal)
    · obtain ⟨r, there, rfl⟩ := stands _ member state rfl closed
      exact told r there closed
  · obtain ⟨r, there, same⟩ := stands state answered closed
    refine ⟨r, (step i e c h).keeps r there ?_, same⟩
    rw [← closed, ← same]
    rfl

/-- A process without credentials. -/
def openSite : Site := ⟨smallSettings, ⟨none, none⟩, ⟨fun _ => none, ⟨Char.toLower, fun _ => []⟩⟩⟩

def acceptance : Incoming := ⟨reviewing, none, .postDecision 3000 ⟨.accept, some "ana", none, none⟩⟩

/-- The form for another field, with a name that Latin-1 has. -/
def formAcceptance : Incoming :=
  ⟨reviewing, none, .decideField none 3001 [("action", "accept"), ("reviewer", "anaïs")]⟩

theorem accepted_carries : ∀ incoming ∈ [acceptance, formAcceptance, acceptance],
    incoming.Carries := by
  intro incoming member
  simp only [List.mem_cons, List.not_mem_nil, or_false] at member
  rintro cookie id data asked name named
  obtain rfl | rfl | rfl := member
  · cases asked
  · cases asked
    obtain rfl : "anaïs" = name := Option.some.inj named
    decide
  · cases asked

/-- One field is accepted, then another one with the form, and then the first one again. -/
theorem corrections_close_the_loop_accepted :
    ∃ response, getCorrections smallSettings reviewing none none ⟨100, 0, by decide, by decide⟩
        (run openSite.respond [acceptance, formAcceptance, acceptance] extracted).2 =
          .reply response ∧
      (response.items.map ReviewedFieldOut.id).Perm [3000, 3001] := by
  have numbers : Numbers extracted := by
    unfold Numbers
    decide +kernel
  obtain ⟨response, replied, listed, _⟩ := @corrections_close_the_loop openSite 3 _ (by decide)
    served_extracted numbers _ accepted_carries reviewing ⟨100, 0, by decide, by decide⟩ rfl
    (by decide +kernel)
  exact ⟨response, replied, listed⟩

/-! ### The gate -/

/-- Whether the handler of a request is called. -/
def Site.hears (site : Site) (incoming : Incoming) : Bool :=
  !incoming.request.gated || passes site.auth incoming.credentials

/-- The answer to a request whose handler is not called. -/
def Site.turnAway (site : Site) (incoming : Incoming) : Answer Body :=
  (site.gate incoming).map fun _ => .health

theorem gate_of_unheard {incoming : Incoming} (unheard : site.hears incoming = false) :
    ∀ body, site.gate incoming ≠ .reply body := by
  simp only [Site.hears, Bool.or_eq_false_iff, Bool.not_eq_false'] at unheard
  intro body opened
  rw [Site.gate, if_pos unheard.1] at opened
  rw [passes, opened] at unheard
  cases unheard.2

theorem respond_unheard {incoming : Incoming} (d : Database)
    (unheard : site.hears incoming = false) :
    site.respond incoming d = (site.turnAway incoming, d) := by
  rw [Site.respond, Site.turnAway]
  cases opened : site.gate incoming with
  | reply body => exact absurd opened (gate_of_unheard unheard body)
  | refused => rfl
  | failed => rfl

/-- Requests that the gate turns away change nothing, neither the tables nor an answer to
another request, and learn nothing: they are answered alike whatever the tables are. An engaged
gate lets a review request through with the configured credentials only. -/
theorem gate_holds (site : Site) (requests : List Incoming) (d : Database) :
    (run site.respond requests d).2 = (run site.respond (requests.filter site.hears) d).2 ∧
      (exchanges site.respond requests d).filter (site.hears ·.1) =
        exchanges site.respond (requests.filter site.hears) d ∧
      (∀ incoming answer, (incoming, answer) ∈ exchanges site.respond requests d →
        site.hears incoming = false → answer = site.turnAway incoming ∧
          ∀ body, answer ≠ .reply body) ∧
      ∀ incoming, incoming.request.gated = true → site.hears incoming = true →
        site.auth = ⟨none, none⟩ ∨ ∃ given, incoming.credentials = some given ∧
          site.auth = ⟨some given.username, some given.password⟩ := by
  have blind : ∀ incoming d, site.hears incoming = false → _ := fun incoming d =>
    @respond_unheard site incoming d
  refine ⟨(run_filter blind requests d).1, (run_filter blind requests d).2, ?_, ?_⟩
  · intro incoming answer member unheard
    obtain rfl := answer_of_deaf blind requests member unheard
    refine ⟨rfl, fun body replied => ?_⟩
    rw [Site.turnAway] at replied
    obtain ⟨_, opened, _⟩ := Answer.map_reply replied
    exact gate_of_unheard unheard _ opened
  · intro incoming gated heard
    simp only [Site.hears, gated, Bool.not_true, Bool.false_or] at heard
    exact ((passes_iff _ _).mp heard).imp id fun ⟨given, sent, _, _, same⟩ => ⟨given, sent, same⟩

end IncidentPipeline.Api
