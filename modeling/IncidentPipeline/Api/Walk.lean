import IncidentPipeline.Api.ClosedLoop

/-!
# A walk through the queue

A reviewer who works through the queue on the page: the next field is shown, a form is posted
for it, and the next field is shown again. Whatever is in the forms, the walk goes through the
queue in the order in which it is presented, and stays at a field until its row is decided, also
where the answer to the form fails after the decision has been made.
-/

namespace IncidentPipeline.Api

open Python Tables Transactions Machines

/-! ### Visits -/

/-- A look at the next field, and the form that is filled in for what is shown. -/
structure Visit where
  looks : RequestEnv
  posts : RequestEnv
  cookie : Option String
  fill : ReviewItem → Dict String

/-- The field that has been shown, the answer to the form, and whether the tables have the field as
decided now. -/
abbrev VisitAnswer := Answer (Option (ReviewItem × Answer UiResponse × Bool))

def visit (cfg : Settings) (v : Visit) (d : Database) : VisitAnswer × Database :=
  match nextField cfg v.looks v.cookie d with
  | .reply (.page page) =>
      match page.item with
      | some item =>
          let answered := decideField cfg v.posts v.cookie item.review.id (v.fill item) d
          (.reply (some (item, answered.1, item.review.id ∈ decidedIds answered.2)), answered.2)
      | none => (.reply none, d)
  | .reply (.redirect _) => (.reply none, d)
  | .refused statusCode detail => (.refused statusCode detail, d)
  | .failed e => (.failed e, d)

/-- The row of the field that is shown. -/
def shownRow : VisitAnswer → Option FieldReview
  | .reply (some (item, _, _)) => some item.review
  | _ => none

/-- One if the field is decided, whatever the form is answered with. -/
def settled : VisitAnswer → Nat
  | .reply (some (_, _, true)) => 1
  | _ => 0

/-- Nothing is skipped. -/
def Visit.Decides (v : Visit) : Prop :=
  ∀ item, actionOf (submitted (v.fill item) "action") ≠ some .skip

/-- The value is accepted, under a name and with texts that the driver sends. -/
structure Visit.Approves (v : Visit) : Prop where
  action : ∀ item, submitted (v.fill item) "action" = "accept"
  named : ∀ item, strip (submitted (v.fill item) "reviewer") ≠ ""
  sent : ∀ item, refusedText (strip (submitted (v.fill item) "reviewer") ::
    (submittedNote (v.fill item)).toList) = none

variable {cfg : Settings} {v : Visit} {d : Database}

theorem Visit.Approves.decides (approves : v.Approves) : v.Decides := by
  intro item
  rw [approves.action item]
  simp [actionOf]

/-! ### What is shown -/

theorem nextItem_reads (reviewable : Reviewable d) (env : RequestEnv) (collation : Collation) :
    (reviewQueue collation d.fieldReviews = [] → reads env (nextItem collation) d = .ok none) ∧
      ∀ r rest, reviewQueue collation d.fieldReviews = r :: rest →
        ∃ item, reads env (nextItem collation) d = .ok (some item) ∧ item.review = r := by
  have joined := reviewable.joined.queueRows collation
  constructor
  · intro empty
    rw [empty, List.map_eq_nil_iff] at joined
    rw [reads, nextItem, nextForReview, Prog.bind_eq, Prog.serial_bind, Prog.bind_eq,
      Prog.serial_bind, listQueue_serial, joined]
    rfl
  · intro r rest queue
    rw [queue, List.map_eq_cons_iff] at joined
    obtain ⟨row, later, rows, same, _⟩ := joined
    have member : r ∈ d.fieldReviews := (mem_reviewQueue.mp (queue ▸ List.mem_cons_self)).1
    have find := joinedReviews_find reviewable.joined row.queued.id
    have key : row.queued.id = r.id := congrArg FieldReview.id same
    rw [key, reviewable.legal.table.ids.find? member, Option.map_eq_some_iff] at find
    obtain ⟨found, there, review⟩ := find
    refine ⟨found.item, ?_, review⟩
    rw [reads, nextItem, nextForReview, Prog.bind_eq, Prog.serial_bind, Prog.bind_eq,
      Prog.serial_bind, listQueue_serial, rows]
    show (((loadForReview row.queued.id).bind fun item => .ret (.ok (some item))).serial postgres
      env.context ⟨d, false⟩).1 = _
    rw [Prog.serial_bind, loadForReview_serial, loaded, key, there]
    rfl

theorem length_reviewQueue (collation : Collation) (rows : List FieldReview) :
    (reviewQueue collation rows).length = rows.countP (·.reviewState = .routed) := by
  rw [reviewQueue, List.length_mergeSort, List.countP_eq_length_filter]
  rfl

/-- The page shows the head of the queue, and its length. -/
theorem nextField_shows (reviewable : Reviewable d) (env : RequestEnv) (cookie : Option String) :
    ∃ page, nextField cfg env cookie d = .reply (.page page) ∧
      page.item.map ReviewItem.review = (reviewQueue cfg.collation d.fieldReviews).head? ∧
      page.queueSize = (reviewQueue cfg.collation d.fieldReviews).length := by
  rw [length_reviewQueue]
  obtain ⟨none_, some_⟩ := nextItem_reads reviewable env cfg.collation
  cases queue : reviewQueue cfg.collation d.fieldReviews with
  | nil =>
      rw [nextField, none_ queue]
      dsimp only
      rw [render, reads_queueSize]
      exact ⟨_, rfl, rfl, rfl⟩
  | cons r rest =>
      obtain ⟨item, read, rfl⟩ := some_ r rest queue
      have member : item.review ∈ d.fieldReviews :=
        (mem_reviewQueue.mp (queue ▸ List.mem_cons_self)).1
      obtain ⟨spec, built⟩ := reviewable.formSpec env.rt member
      rw [nextField, read]
      dsimp only
      rw [render, reads_queueSize, itemForm_eq built]
      exact ⟨_, rfl, rfl, rfl⟩

/-! ### The queue after a decision -/

/-- A decided row leaves the queue, and the others stay where they are. -/
theorem reviewQueue_decided (linear : cfg.collation.Linear) (legal : LegalReviews d.fieldReviews)
    {r next : FieldReview} {rest : List FieldReview}
    (queue : reviewQueue cfg.collation d.fieldReviews = r :: rest)
    (decided : next.reviewState = .reviewed) :
    reviewQueue cfg.collation (replaceRow FieldReview.id r.id next d.fieldReviews) = rest := by
  have ids := legal.table.ids
  have nodup := @reviewQueue_nodup cfg.collation _ ids
  have gone : next.queued = false := by simp [FieldReview.queued, decided]
  rw [reviewQueue, filter_replaceRow_of_not _ gone, linear.queueRanks.mergeSort_filter_stable
    ((List.Nodup.of_map _ ids).filter _)]
  change (reviewQueue cfg.collation d.fieldReviews).filter _ = rest
  rw [queue] at nodup ⊢
  have apart : ∀ s ∈ rest, s.id ≠ r.id := by
    intro s hs equal
    have inside : ∀ t ∈ r :: rest, t ∈ d.fieldReviews := fun t ht =>
      (mem_reviewQueue.mp (queue ▸ ht)).1
    obtain rfl := ids.eq_of_key (inside s (List.mem_cons_of_mem r hs)) (inside r List.mem_cons_self)
      equal
    exact (List.nodup_cons.mp nodup).1 hs
  simpa using apart

/-! ### One visit -/

/-- An approval of a field that waits is recorded. -/
theorem decideField_approves (reviewable : Reviewable d) {r : FieldReview}
    (member : r ∈ d.fieldReviews) (queued : r.reviewState = .routed) {env : RequestEnv}
    (cookie : Option String) {data : Dict String} (action : submitted data "action" = "accept")
    (named : strip (submitted data "reviewer") ≠ "")
    (sent : refusedText (strip (submitted data "reviewer") :: (submittedNote data).toList) = none) :
    ∃ (input : DecisionInput) (next : FieldReview), input.action ≠ .skip ∧
      input.outcome r.id d = .ok (next, (decideField cfg env cookie r.id data d).2) := by
  have find := joinedReviews_find reviewable.joined r.id
  have found := reviewable.legal.table.ids.find? member
  rw [found, Option.map_eq_some_iff] at find
  obtain ⟨row, there, _⟩ := find
  have asked : actionOf (submitted data "action") = some .accept := by rw [action]; rfl
  let input : DecisionInput :=
    ⟨env.rt, env.now, .accept, some (submitted data "reviewer"), .null, submittedNote data⟩
  have recorded : ∃ out, input.outcome r.id d = .ok out := by
    have free : (⟨strip (submitted data "reviewer") :: (submittedNote data).toList, none,
        r.accept env.now (strip (submitted data "reviewer")) (submittedNote data)⟩ :
          Revision).obstacle = none := by
      simp [Revision.obstacle, sent]
    simp only [input, DecisionInput.outcome, found, DecisionInput.revision, Option.getD_some, queued,
      reduceCtorEq, if_false, if_neg named, except_ok_then, Revision.apply, free]
    exact ⟨_, rfl⟩
  obtain ⟨out, recorded⟩ := recorded
  refine ⟨input, out.1, by simp [input], ?_⟩
  rw [recorded]
  simp only [input] at recorded
  simp only [decideField, asked, decideTransaction_transact reviewable.legal, verdict, there,
    submittedValue, reduceCtorEq, if_false, Option.getD_none, recorded, Prog.commit]

/-- A decision that is made decides its row. -/
theorem decided_of_outcome (legal : LegalReviews d.fieldReviews) {input : DecisionInput}
    {id : Uuid} {next : FieldReview} {d' : Database} (decides : input.action ≠ .skip)
    (made : input.outcome id d = .ok (next, d')) : id ∈ decidedIds d' := by
  have entered := ledger_of_outcome legal made
  rw [decidedBy, if_neg decides] at entered
  exact entered.symm.subset (List.mem_append_right _ List.mem_cons_self)

/-- A visit shows the head of the queue, and removes it if the form is recorded. -/
theorem visit_step (linear : cfg.collation.Linear) (reviewable : Reviewable d)
    (decides : v.Decides) :
    Reviewable (visit cfg v d).2 ∧
      shownRow (visit cfg v d).1 = (reviewQueue cfg.collation d.fieldReviews).head? ∧
      reviewQueue cfg.collation (visit cfg v d).2.fieldReviews =
        (reviewQueue cfg.collation d.fieldReviews).drop (settled (visit cfg v d).1) ∧
      (v.Approves → settled (visit cfg v d).1 =
        if reviewQueue cfg.collation d.fieldReviews = [] then 0 else 1) := by
  obtain ⟨page, answered, shows, _⟩ := @nextField_shows cfg d reviewable v.looks v.cookie
  rw [visit, answered]
  dsimp only
  cases item : page.item with
  | none =>
      rw [item] at shows
      have empty : reviewQueue cfg.collation d.fieldReviews = [] :=
        List.head?_eq_none_iff.mp shows.symm
      exact ⟨reviewable, shows, rfl, fun _ => (if_pos empty).symm⟩
  | some item_ =>
      rw [item] at shows
      obtain ⟨rest, queue⟩ := List.head?_eq_some_iff.mp shows.symm
      obtain ⟨member, queued⟩ := mem_reviewQueue.mp (queue ▸ List.mem_cons_self)
      have full : reviewQueue cfg.collation d.fieldReviews ≠ [] := by simp [queue]
      have waits : item_.review.id ∉ decidedIds d := by
        rw [mem_decidedIds]
        rintro ⟨s, there, closed, key⟩
        obtain rfl := reviewable.legal.table.ids.eq_of_key there member key
        rw [closed] at queued
        cases queued
      dsimp only
      obtain ⟨same, _⟩ | ⟨input, next, asked, made, _⟩ :=
        @decideField_cases d item_.review.id cfg v.posts v.cookie (v.fill item_) reviewable.legal
      · rw [same, decide_eq_false waits]
        refine ⟨reviewable, shows, rfl, fun approves => ?_⟩
        obtain ⟨input, next, acts, made⟩ := @decideField_approves cfg d reviewable _ member queued
          v.posts v.cookie _ (approves.action item_) (approves.named item_) (approves.sent item_)
        rw [same] at made
        exact absurd (decided_of_outcome reviewable.legal acts made) waits
      · have acts : input.action ≠ .skip := fun skips =>
          decides item_ (asked.trans (congrArg some skips))
        rw [decide_eq_true (decided_of_outcome reviewable.legal acts made)]
        have advances := advances_of_outcome reviewable made
        have decided : next.reviewState = .reviewed := (reviewed_of_outcome made).mpr acts
        obtain ⟨_, _, _, _, after⟩ := DecisionInput.outcome_inv made
        refine ⟨advances.reviewable, shows, ?_, fun _ => (if_neg full).symm⟩
        rw [after, reviewQueue_decided linear reviewable.legal queue decided, queue]
        rfl

/-! ### The walk -/

/-- The walk goes through the queue in its order and stays at a field until the field is decided.
If every form is an approval it takes a field with every step, and ends at the page that says
that nothing is left. -/
theorem queue_walk {maxAttempts : Nat} {w : ServiceWorld} (positive : 1 ≤ maxAttempts)
    (reachable : Reachable (serviceSystem maxAttempts) Database.empty w)
    (linear : cfg.collation.Linear) (visits : List Visit) (forms : ∀ v ∈ visits, v.Decides) :
    reviewQueue cfg.collation (run (visit cfg) visits w.committed).2.fieldReviews =
        (reviewQueue cfg.collation w.committed.fieldReviews).drop
          ((run (visit cfg) visits w.committed).1.map settled).sum ∧
      (∀ k < visits.length, (run (visit cfg) visits w.committed).1[k]?.bind shownRow =
        (reviewQueue cfg.collation w.committed.fieldReviews)[
          (((run (visit cfg) visits w.committed).1.take k).map settled).sum]?) ∧
      ((∀ v ∈ visits, v.Approves) →
        (reviewQueue cfg.collation w.committed.fieldReviews).length ≤ visits.length →
        ∀ env cookie, ∃ page,
          nextField cfg env cookie (run (visit cfg) visits w.committed).2 = .reply (.page page) ∧
            page.item = none ∧ page.queueSize = 0) := by
  have start := service_reviewable positive reachable
  have kept : ∀ v d, v.Decides → Reviewable d → Reviewable (visit cfg v d).2 :=
    fun v d decides h => (visit_step linear h decides).1
  have head : ∀ (v : Visit) d, v.Decides → Reviewable d → _ :=
    fun v d decides h => (@visit_step cfg v d linear h decides).2.1
  have rest : ∀ (v : Visit) d, v.Decides → Reviewable d → _ :=
    fun v d decides h => (@visit_step cfg v d linear h decides).2.2.1
  obtain ⟨reached, last, each⟩ := @run_serves _ _ _ _ _ _ _ kept
    (fun d => reviewQueue cfg.collation d.fieldReviews) _ _ head rest visits forms _ start
  refine ⟨last, each, fun approve enough env cookie => ?_⟩
  -- every approval takes a field as long as there is one
  have takes : ∀ v d, v.Approves → Reviewable d →
      reviewQueue cfg.collation (visit cfg v d).2.fieldReviews =
        (reviewQueue cfg.collation d.fieldReviews).drop 1 := by
    intro v d approves h
    obtain ⟨_, _, after, one⟩ := @visit_step cfg v d linear h approves.decides
    rw [after, one approves]
    split
    · next empty => rw [empty]; rfl
    · rfl
  have taken := (@run_serves _ _ _ _ _ _ _ (fun v d approves => kept v d approves.decides)
    (fun d => reviewQueue cfg.collation d.fieldReviews) _ (fun _ => 1)
    (fun v d approves => head v d approves.decides) takes visits approve _ start).2.1
  rw [List.map_const', List.sum_replicate, smul_eq_mul, mul_one, length_run,
    List.drop_eq_nil_of_le enough] at taken
  obtain ⟨page, answered, shows, size⟩ := @nextField_shows cfg _ reached env cookie
  rw [taken] at shows size
  exact ⟨page, answered, Option.map_eq_none_iff.mp shows, size⟩

/-- The extracted rows after a pass under a floor that none of them reaches. -/
def allRouted : Database :=
  { extracted with fieldReviews := afterPass byCodePoint 7 2 none extracted.fieldReviews }

theorem served_allRouted : Reachable (serviceSystem 3) Database.empty ⟨allRouted, []⟩ := by
  have legal := (service_reviewable (by decide) served_extracted).legal
  obtain ⟨result, routed, _⟩ := @routePending_serial byCodePoint 7 2 none ⟨extracted, []⟩ extracted
    (by simp) legal
  have alone : (serviceSystem 3).context [] ⟨extracted, []⟩ := by simp [serviceSystem]
  refine served_extracted.transact (.route byCodePoint 7 2 none) alone (a := ()) ?_
  show Prog.serial postgres _ _ _ = _
  rw [Prog.serial_bind, routed]
  rfl

def approval : Visit :=
  ⟨reviewing, reviewing, none, fun _ => [("action", "accept"), ("reviewer", "ana")]⟩

theorem approval_approves : approval.Approves := by
  have reviewer : ∀ item, submitted (approval.fill item) "reviewer" = "ana" := fun _ => rfl
  have note : ∀ item, submittedNote (approval.fill item) = none := by
    intro item
    show blankIsUnset "" = none
    decide
  refine ⟨fun _ => rfl, fun item => ?_, fun item => ?_⟩
  · rw [reviewer]
    decide
  · rw [reviewer, note]
    decide

/-- As many approvals as the record has fields empty the queue. -/
theorem queue_walk_approved : ∃ page,
    nextField { smallSettings with collation := byCodePoint } reviewing none
        (run (visit { smallSettings with collation := byCodePoint })
          (List.replicate recordFields.length approval) allRouted).2 = .reply (.page page) ∧
      page.item = none ∧ page.queueSize = 0 := by
  have approve : ∀ v ∈ List.replicate recordFields.length approval, v.Approves := by
    intro v member
    rw [List.eq_of_mem_replicate member]
    exact approval_approves
  refine (@queue_walk { smallSettings with collation := byCodePoint } 3 _ (by decide)
    served_allRouted byCodePoint_linear _ fun v member => (approve v member).decides).2.2 approve ?_
    reviewing none
  rw [length_reviewQueue, List.length_replicate]
  exact List.countP_le_length.trans (by simp [allRouted, afterPass, extracted, fieldReviewRows])

end IncidentPipeline.Api
