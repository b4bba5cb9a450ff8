import IncidentPipeline.Review.Queries
import IncidentPipeline.Review.Ranking

/-!
# How the queue turns

The queue is sorted by the time of the last skip, with the rows that were never skipped in
front. A skip at a time later than all others puts the first row behind all the others and
leaves their order alone, so that the queue turns.
-/

namespace IncidentPipeline

open Python Ranking Tables Transactions

variable {collation : Collation} {r s t : FieldReview} {rows : List FieldReview} {d : Database}

/-! ### The order -/

theorem queueLe_unskipped (first : r.lastSkippedAt = none) (second : s.lastSkippedAt = none) :
    queueLe collation r s = rankLe collation r s := by
  rw [queueLe, first, second]

theorem queueLe_skipped {m n : Time} (first : r.lastSkippedAt = some m)
    (second : s.lastSkippedAt = some n) :
    queueLe collation r s = true ↔ m < n ∨ (m = n ∧ rankLe collation r s = true) := by
  rw [queueLe, first, second]
  by_cases same : m = n
  · simp [same]
  · simp [same]

/-- Nothing that was skipped is ahead of something that was not. -/
theorem unskipped_of_queueLe (ahead : queueLe collation r s = true)
    (unskipped : s.lastSkippedAt = none) : r.lastSkippedAt = none := by
  cases first : r.lastSkippedAt with
  | none => rfl
  | some time => simp [queueLe, first, unskipped] at ahead

theorem Collation.Linear.queueRanks (linear : collation.Linear) : Ranks (queueLe collation) where
  total r s := by
    rw [Bool.or_eq_true]
    have rank := linear.ranks.total r s
    rw [Bool.or_eq_true] at rank
    cases first : r.lastSkippedAt with
    | none =>
        cases second : s.lastSkippedAt with
        | none => rwa [queueLe_unskipped first second, queueLe_unskipped second first]
        | some n => exact .inl (by rw [queueLe, first, second])
    | some m =>
        cases second : s.lastSkippedAt with
        | none => exact .inr (by rw [queueLe, first, second])
        | some n =>
            rw [queueLe_skipped first second, queueLe_skipped second first]
            obtain h | h | h := lt_trichotomy m n
            · exact .inl (.inl h)
            · exact rank.imp (fun k => .inr ⟨h, k⟩) (fun k => .inr ⟨h.symm, k⟩)
            · exact .inr (.inl h)
  trans r s t := by
    intro early late
    have rank := linear.ranks.trans r s t
    cases first : r.lastSkippedAt with
    | none =>
        cases third : t.lastSkippedAt with
        | some n => rw [queueLe, first, third]
        | none =>
            cases second : s.lastSkippedAt with
            | some m => simp [queueLe, second, third] at late
            | none =>
                rw [queueLe_unskipped first second] at early
                rw [queueLe_unskipped second third] at late
                rw [queueLe_unskipped first third]
                exact rank early late
    | some m =>
        cases second : s.lastSkippedAt with
        | none => simp [queueLe, first, second] at early
        | some n =>
            cases third : t.lastSkippedAt with
            | none => simp [queueLe, second, third] at late
            | some k =>
                rw [queueLe_skipped first second] at early
                rw [queueLe_skipped second third] at late
                rw [queueLe_skipped first third]
                obtain early | ⟨rfl, early⟩ := early
                · exact .inl (late.elim (fun h => early.trans h) fun h => h.1 ▸ early)
                · exact late.imp_right fun h => ⟨h.1, rank early h.2⟩

/-! ### The queue of a table -/

def FieldReview.queued (r : FieldReview) : Bool := r.reviewState = .routed

/-- The routed rows in the order of presentation. -/
def reviewQueue (collation : Collation) (rows : List FieldReview) : List FieldReview :=
  (rows.filter FieldReview.queued).mergeSort (queueLe collation)

/-- The references by which the queue is joined. The schema declares no foreign key for them;
they hold in every state that the workers reach. -/
structure Joined (d : Database) : Prop where
  extractions : Keyed Extraction.id d.extractions
  documents : Keyed Document.id d.documents
  extractionOf : ∀ r ∈ d.fieldReviews, ∃ x ∈ d.extractions, x.id = r.extractionId
  documentOf : ∀ x ∈ d.extractions, ∃ y ∈ d.documents, y.id = x.documentId

/-- Every row is joined to one extraction and one document. -/
theorem Joined.joinedReviews (joined : Joined d) :
    (joinedReviews d).map JoinedReview.review = d.fieldReviews := by
  have single : ∀ r ∈ d.fieldReviews,
      (((d.extractions.filter (·.id = r.extractionId)).flatMap fun e =>
        (d.documents.filter (·.id = e.documentId)).map fun document =>
          (⟨r, e, document⟩ : JoinedReview)).map JoinedReview.review) = [r] := by
    intro r hr
    obtain ⟨x, hx, extraction⟩ := joined.extractionOf r hr
    obtain ⟨y, hy, document⟩ := joined.documentOf x hx
    rw [← extraction, joined.extractions.filter_key hx, List.flatMap_singleton, ← document,
      joined.documents.filter_key hy]
    rfl
  rw [IncidentPipeline.joinedReviews, List.map_flatMap, List.flatMap_congr single,
    List.flatMap_singleton']

theorem Joined.queueRows (joined : Joined d) (collation : Collation) :
    (queueRows collation d).map JoinedReview.review = reviewQueue collation d.fieldReviews := by
  rw [IncidentPipeline.queueRows, List.map_mergeSort (s := queueLe collation) (fun _ _ _ _ => rfl),
    reviewQueue, ← joined.joinedReviews, List.filter_map]
  rfl

/-- The row that `next_for_review` shows. -/
def presented (collation : Collation) (context : Context) (d : Database) : Option Uuid :=
  match ((nextForReview collation).serial postgres context ⟨d, false⟩).1 with
  | .ok item => item.map QueuedField.id
  | .error _ => none

theorem listQueue_serial (collation : Collation) (limit offset : Nat) (context : Context) :
    (listQueue collation limit offset).serial postgres context ⟨d, false⟩ =
      (.ok ((((queueRows collation d).drop offset).take limit).map JoinedReview.queued),
        ⟨d, false⟩) :=
  serial_select

theorem presented_eq_head (collation : Collation) (context : Context) (d : Database) :
    presented collation context d = ((queueRows collation d).map (·.review.id)).head? := by
  rw [presented, nextForReview, Prog.bind_eq, Prog.serial_bind, listQueue_serial]
  cases queueRows collation d <;> rfl

theorem Joined.presented (joined : Joined d) (collation : Collation) (context : Context) :
    presented collation context d =
      ((reviewQueue collation d.fieldReviews).map FieldReview.id).head? := by
  rw [presented_eq_head, ← joined.queueRows, List.map_map]
  rfl

/-! ### One skip -/

/-- The table after a skip. -/
def afterSkip (id : Uuid) (now : Time) (rows : List FieldReview) : List FieldReview :=
  rows.map (updateRow id (·.skip now))

theorem updateRow_skip_sameOrigin (id : Uuid) (now : Time) (r : FieldReview) :
    r.SameOrigin (updateRow id (·.skip now) r) := by
  rw [updateRow]
  split
  · exact r.skip_sameOrigin now
  · exact ⟨rfl, rfl, rfl, rfl, rfl, rfl⟩

theorem updateRow_skip_state (id : Uuid) (now : Time) (r : FieldReview) :
    (updateRow id (·.skip now) r).reviewState = r.reviewState := by
  rw [updateRow]
  split <;> rfl

theorem getFieldReview_serial {id : Uuid} (found : d.fieldReviews.find? (·.id = id) = some r)
    (context : Context) :
    (getFieldReview id).serial postgres context ⟨d, false⟩ = (.ok r, ⟨d, false⟩) := by
  simp only [getFieldReview, selectFieldReview, Prog.bind_eq, Prog.serial_bind, serial_select,
    found, Prog.pure_eq, Prog.serial_ret]

/-- A queued row can always be skipped. -/
theorem skip_run (legal : LegalReviews d.fieldReviews) (member : r ∈ d.fieldReviews)
    (queued : r.reviewState = .routed) (rt : Runtime) (context : Context) (now : Time)
    (reviewer : Option String) (value : Json) (note : Option String) :
    ((ReviewCall.decide rt now r.id .skip reviewer value note).run context d).2 =
      { d with fieldReviews := afterSkip r.id now d.fieldReviews } := by
  have skipped : (r.skip now).Checked := legal.checked r member
  have replayed := @ReviewTable.replay_update d legal.table (fun s => decide (s.id = r.id))
    (·.skip now) (fun s _ => (s.skip_sameOrigin now).sameKeys) (by
      intro s hs same
      rwa [legal.table.ids.eq_of_key hs member (of_decide_eq_true same)])
  have found : d.fieldReviews.find? (·.id = r.id) = some r := legal.table.ids.find? member
  have mapped : (d.fieldReviews.map fun s => if decide (s.id = r.id) then s.skip now else s) =
      afterSkip r.id now d.fieldReviews := by
    simp only [afterSkip, decide_eq_true_eq]
    rfl
  rw [mapped] at replayed
  have still : ∃ s, (afterSkip r.id now d.fieldReviews).find? (·.id = r.id) = some s := by
    rw [← Option.isSome_iff_exists, List.find?_isSome]
    refine ⟨r.skip now, List.mem_map.mpr ⟨r, member, if_pos rfl⟩, ?_⟩
    simp [FieldReview.skip]
  obtain ⟨s, still⟩ := still
  have read := getFieldReview_serial found context
  have again := getFieldReview_serial
    (d := { d with fieldReviews := afterSkip r.id now d.fieldReviews }) still context
  have sent : (updateFieldReviewSql r.id [] none (·.skip now)).run context d =
      .ok ((), (d.fieldReviews.filter (·.id = r.id)).map
        fun s => .updateFieldReview s (s.skip now)) := rfl
  simp only [ReviewCall.run, ReviewCall.program, recordDecision, Prog.bind_eq, Prog.serial_bind,
    read, queued, reduceCtorEq, ne_eq, not_true_eq_false, if_true, if_false,
    Prog.serial_execute_ok rfl sent replayed, again, Prog.pure_eq, Prog.serial_ret]

/-! ### The queue after a skip -/

/-- Every recorded skip happened before. -/
def SkippedBefore (now : Time) (rows : List FieldReview) : Prop :=
  ∀ r ∈ rows, ∀ time, r.lastSkippedAt = some time → time < now

theorem mem_reviewQueue : r ∈ reviewQueue collation rows ↔ r ∈ rows ∧ r.reviewState = .routed := by
  simp [reviewQueue, FieldReview.queued]

theorem reviewQueue_nodup (keyed : Keyed FieldReview.id rows) :
    (reviewQueue collation rows).Nodup :=
  (List.mergeSort_perm _ _).nodup_iff.mpr ((List.Nodup.of_map _ keyed).filter _)

/-- The row that was skipped goes behind the others, which stay as they are. -/
theorem reviewQueue_afterSkip (linear : collation.Linear) (keyed : Keyed FieldReview.id rows)
    {rest : List FieldReview} (queue : reviewQueue collation rows = r :: rest) {now : Time}
    (before : SkippedBefore now rows) :
    reviewQueue collation (afterSkip r.id now rows) = rest ++ [r.skip now] := by
  have inside : ∀ s ∈ r :: rest, s ∈ rows := fun s hs =>
    (mem_reviewQueue.mp (queue ▸ hs)).1
  have waiting : (afterSkip r.id now rows).filter FieldReview.queued =
      (rows.filter FieldReview.queued).map (updateRow r.id (·.skip now)) := by
    rw [afterSkip, List.filter_map]
    congr 1
    refine List.filter_congr fun s _ => ?_
    rw [Function.comp_apply, FieldReview.queued, updateRow_skip_state, FieldReview.queued]
  have skipped : updateRow r.id (·.skip now) r = r.skip now := if_pos rfl
  rw [reviewQueue, waiting, ← skipped]
  apply linear.queueRanks.mergeSort_requeue ((List.Nodup.of_map _ keyed).filter _) queue
  · intro s hs
    refine if_neg fun same => ?_
    have nodup := @reviewQueue_nodup collation rows keyed
    rw [queue, List.nodup_cons] at nodup
    have equal := keyed.eq_of_key (inside s (List.mem_cons_of_mem r hs))
      (inside r List.mem_cons_self) same
    exact nodup.1 (equal ▸ hs)
  · intro s hs
    rw [skipped]
    cases last : s.lastSkippedAt with
    | none => rw [queueLe, last]; rfl
    | some time =>
        have earlier := before s (inside s (List.mem_cons_of_mem r hs)) time last
        refine Bool.eq_false_iff.mpr fun ahead => ?_
        obtain later | ⟨same, _⟩ := (queueLe_skipped (r := r.skip now) rfl last).mp ahead
        · exact absurd earlier later.not_gt
        · exact earlier.ne' same

/-- Those that were never skipped are in front, as they were ranked for routing. -/
theorem reviewQueue_parts (linear : collation.Linear) (keyed : Keyed FieldReview.id rows) :
    reviewQueue collation rows =
      (rows.filter fun r => r.queued && r.lastSkippedAt.isNone).mergeSort (rankLe collation) ++
        (reviewQueue collation rows).filter (fun r => !r.lastSkippedAt.isNone) := by
  have nodup : (rows.filter FieldReview.queued).Nodup := (List.Nodup.of_map _ keyed).filter _
  have front : (reviewQueue collation rows).filter (fun r => r.lastSkippedAt.isNone) =
      (rows.filter fun r => r.queued && r.lastSkippedAt.isNone).mergeSort (rankLe collation) := by
    rw [reviewQueue, ← linear.queueRanks.mergeSort_filter_stable nodup, List.filter_filter]
    have same := List.map_mergeSort (r := queueLe collation) (s := rankLe collation) (f := id)
      (l := rows.filter fun r => r.lastSkippedAt.isNone && r.queued) (by
        intro a ha b hb
        simp only [List.mem_filter, Bool.and_eq_true, Option.isNone_iff_eq_none] at ha hb
        exact queueLe_unskipped ha.2.1 hb.2.1)
    rw [List.map_id, List.map_id] at same
    rw [same]
    simp only [Bool.and_comm]
  rw [← front]
  apply filter_append_filter_not
  refine (linear.queueRanks.sorted _).imp fun {r s} ahead => ?_
  intro unskipped
  rw [Option.isNone_iff_eq_none] at unskipped ⊢
  exact unskipped_of_queueLe ahead unskipped

/-! ### A run of skips -/

/-- A skip as it is requested. -/
structure SkipRequest where
  rt : Runtime
  context : Context
  now : Time
  reviewer : Option String
  value : Json
  note : Option String

/-- The row that is presented is skipped. -/
def SkipRequest.run (skip : SkipRequest) (collation : Collation) (d : Database) : Database :=
  match presented collation skip.context d with
  | none => d
  | some id => ((ReviewCall.decide skip.rt skip.now id .skip skip.reviewer skip.value
      skip.note).run skip.context d).2

/-- The tables after `k` skips. -/
def afterSkips (collation : Collation) (skips : Nat → SkipRequest) (d : Database) : Nat → Database
  | 0 => d
  | k + 1 => (skips k).run collation (afterSkips collation skips d k)

/-- The rows that wait, in the order of the table. -/
def routedIds (rows : List FieldReview) : List Uuid :=
  (rows.filter FieldReview.queued).map FieldReview.id

/-- What a run of skips needs of the tables, and keeps. -/
structure Skippable (now : Time) (d : Database) : Prop where
  legal : LegalReviews d.fieldReviews
  joined : Joined d
  before : SkippedBefore now d.fieldReviews

theorem Joined.afterSkip (joined : Joined d) (id : Uuid) (now : Time) :
    Joined { d with fieldReviews := afterSkip id now d.fieldReviews } where
  extractions := joined.extractions
  documents := joined.documents
  extractionOf := by
    intro s hs
    obtain ⟨r, hr, rfl⟩ := List.mem_map.mp hs
    rw [(updateRow_skip_sameOrigin id now r).extractionId]
    exact joined.extractionOf r hr
  documentOf := joined.documentOf

theorem SkippedBefore.afterSkip {now later : Time} (before : SkippedBefore now rows)
    (lt : now < later) (id : Uuid) : SkippedBefore later (afterSkip id now rows) := by
  intro s hs time last
  obtain ⟨r, hr, rfl⟩ := List.mem_map.mp hs
  rw [updateRow] at last
  split at last
  · cases last
    exact lt
  · exact (before r hr time last).trans lt

/-- One skip turns the queue by one place. -/
theorem Skippable.skip (linear : collation.Linear) {skip : SkipRequest}
    (skippable : Skippable skip.now d) {later : Time} (lt : skip.now < later) :
    Skippable later (skip.run collation d) ∧
      (reviewQueue collation (skip.run collation d).fieldReviews).map FieldReview.id =
        ((reviewQueue collation d.fieldReviews).map FieldReview.id).rotate 1 := by
  obtain ⟨legal, joined, before⟩ := skippable
  have shown := joined.presented collation skip.context
  cases queue : reviewQueue collation d.fieldReviews with
  | nil =>
      rw [queue] at shown
      have same : skip.run collation d = d := by
        rw [SkipRequest.run, shown]
        rfl
      rw [same, queue]
      exact ⟨⟨legal, joined, fun r hr time last => (before r hr time last).trans lt⟩, rfl⟩
  | cons r rest =>
      obtain ⟨member, state⟩ := mem_reviewQueue.mp (queue ▸ List.mem_cons_self)
      rw [queue, List.map_cons, List.head?_cons] at shown
      have call := (ReviewCall.decide skip.rt skip.now r.id .skip skip.reviewer skip.value
        skip.note).run_legal skip.context legal
      have ran := skip_run legal member state skip.rt skip.context skip.now skip.reviewer
        skip.value skip.note
      have result : skip.run collation d =
          { d with fieldReviews := afterSkip r.id skip.now d.fieldReviews } := by
        rw [SkipRequest.run, shown]
        exact ran
      rw [ran] at call
      rw [result]
      refine ⟨⟨call, joined.afterSkip r.id skip.now, before.afterSkip lt r.id⟩, ?_⟩
      rw [reviewQueue_afterSkip linear legal.table.ids queue before, List.map_append,
        List.map_cons, List.map_cons, List.map_nil, List.rotate_cons_succ, List.rotate_zero]
      rfl

theorem Skippable.skips (linear : collation.Linear) {skips : Nat → SkipRequest}
    (increasing : ∀ k, (skips k).now < (skips (k + 1)).now)
    (skippable : Skippable (skips 0).now d) (k : Nat) :
    Skippable (skips k).now (afterSkips collation skips d k) := by
  induction k with
  | zero => exact skippable
  | succ k ih => exact (ih.skip linear (increasing k)).1

/-- The presentations of a run of skips: window by window the same round. -/
theorem Skippable.presentations (linear : collation.Linear) {skips : Nat → SkipRequest}
    (increasing : ∀ k, (skips k).now < (skips (k + 1)).now)
    (skippable : Skippable (skips 0).now d) (k : Nat) :
    (List.range (routedIds d.fieldReviews).length).map (fun i =>
        presented collation (skips (k + i)).context (afterSkips collation skips d (k + i))) =
      (((reviewQueue collation d.fieldReviews).map FieldReview.id).rotate k).map some := by
  have held := skippable.skips linear increasing
  have round := heads_of_turns
    (q := fun k => (reviewQueue collation (afterSkips collation skips d k).fieldReviews).map
      FieldReview.id)
    (fun k => ((held k).skip linear (increasing k)).2) k
  have length : (routedIds d.fieldReviews).length =
      ((reviewQueue collation d.fieldReviews).map FieldReview.id).length := by
    rw [routedIds, List.length_map, List.length_map, reviewQueue, List.length_mergeSort]
  refine Eq.trans ?_ round
  rw [length]
  exact List.map_congr_left fun i _ => (held (k + i)).joined.presented collation _

/-! ### Skips in a history of calls -/

def ReviewCall.isSkip : ReviewCall → Bool
  | .decide _ _ _ action _ _ _ => action = .skip
  | _ => false

/-- Whether a call is a skip of the row. -/
def ReviewCall.skipsRow (id : Uuid) (call : ReviewCall) : Bool :=
  call.row? = some id && call.isSkip

/-- How many skips of the row succeed in a history. -/
def skipsOn (id : Uuid) : List (Context × ReviewCall) → Database → Nat
  | [], _ => 0
  | (context, call) :: rest, d =>
      (if call.skipsRow id && (call.run context d).1.toBool then 1 else 0) +
        skipsOn id rest (call.run context d).2

theorem reviewHistory_append (first second : List (Context × ReviewCall)) (d : Database) :
    reviewHistory (first ++ second) d = reviewHistory second (reviewHistory first d) := by
  induction first generalizing d with
  | nil => rfl
  | cons entry rest ih => exact ih (entry.2.run entry.1 d).2

theorem skipsOn_append (id : Uuid) (first second : List (Context × ReviewCall)) (d : Database) :
    skipsOn id (first ++ second) d =
      skipsOn id first d + skipsOn id second (reviewHistory first d) := by
  induction first generalizing d with
  | nil => simp [skipsOn, reviewHistory]
  | cons entry rest ih =>
      rw [List.cons_append, skipsOn, skipsOn, ih, reviewHistory, Nat.add_assoc]

/-- A time of a skip is recorded on the rows that were skipped, all of which are there. -/
structure RecordsSkips (skips : Uuid → Nat) (rows : List FieldReview) : Prop where
  recorded : ∀ r ∈ rows, r.lastSkippedAt = none ↔ skips r.id = 0
  present : ∀ id, skips id ≠ 0 → ∃ r ∈ rows, r.id = id

/-- What creating an extraction's rows leaves: they have not been skipped. -/
theorem create_run {ids : Nat → Uuid} {now : Time} {extractionId : Uuid} {record confidence : Json}
    (legal : LegalReviews d.fieldReviews) (context : Context) :
    let d' := ((ReviewCall.create ids now extractionId record confidence).run context d).2
    ∀ s ∈ d'.fieldReviews, s ∈ d.fieldReviews ∨
      (s.lastSkippedAt = none ∧ ∀ r ∈ d.fieldReviews, r.id ≠ s.id) := by
  have ended : (ReviewCall.create ids now extractionId record confidence).program.ends postgres
      context (fun _ st => ∀ s ∈ st.db.fieldReviews, s ∈ d.fieldReviews ∨
        (s.lastSkippedAt = none ∧ ∀ r ∈ d.fieldReviews, r.id ≠ s.id)) ⟨d, false⟩ := by
    refine Prog.ends_bind (Prog.ends_bind (Prog.ends_execute (fun e aborted s hs => .inl hs) ?_))
    intro reply ops d' _ answer written
    simp only [insertFieldReviewsSql] at answer
    split at answer
    · cases answer
    · cases answer
      obtain ⟨rfl, table⟩ := replay_insertFieldReviews legal.table written
      intro s hs
      obtain old | new := List.mem_append.mp hs
      · exact .inl old
      · obtain ⟨_, _, rfl⟩ := List.mem_map.mp new
        refine .inr ⟨rfl, ?_⟩
        have keys := table.ids
        rw [Keyed, List.map_append, List.nodup_append] at keys
        exact fun r hr => keys.2.2 _ (List.mem_map_of_mem hr) _ (List.mem_map_of_mem new)
  exact ended

/-- A skip records its time, and nothing else does. -/
theorem ReviewCall.Does.lastSkippedAt {call : ReviewCall} (h : call.Does r s) :
    if call.isSkip then s.lastSkippedAt ≠ none else s.lastSkippedAt = r.lastSkippedAt := by
  unfold ReviewCall.Does at h
  split at h
  · exact h.elim
  · obtain ⟨_, rfl⟩ := h
    rfl
  · obtain ⟨_, rfl⟩ := h
    simp [ReviewCall.isSkip, FieldReview.skip]
  · obtain ⟨_, _, rfl⟩ := h
    rfl
  · obtain ⟨_, _, _, _, rfl⟩ := h
    rfl

/-- A successful call that makes no rows: the times of skips are recorded as before. -/
theorem Effect.recordsSkips {call : ReviewCall} {own : List Uuid} {d' : Database}
    {skips : Uuid → Nat} (effect : Effect call own d d')
    (keyed : Keyed FieldReview.id d.fieldReviews) (keeps : call.creates = false)
    (acts : ∀ id, call.row? = some id → own = [id])
    (records : RecordsSkips skips d.fieldReviews) :
    RecordsSkips (fun id => skips id + if call.skipsRow id then 1 else 0) d'.fieldReviews := by
  obtain ⟨f, new, rfl, changed, inserts, all⟩ := effect.changed
  have nothing_new : new = [] := by
    refine List.eq_nil_iff_forall_not_mem.mpr fun s hs => ?_
    have inserted := (inserts s hs).2
    cases call with
    | create => cases keeps
    | route => exact inserted.elim
    | decide => exact inserted.elim
  subst nothing_new
  have sameId : ∀ r ∈ d.fieldReviews, (f r).id = r.id := by
    intro r hr
    obtain same | ⟨_, does⟩ := changed r hr
    · rw [same]
    · exact does.sameOrigin.id
  have skipped : ∀ id, call.skipsRow id = true →
      ∃ r ∈ d.fieldReviews, r.id = id ∧ (f r).lastSkippedAt ≠ none := by
    intro id skips
    rw [ReviewCall.skipsRow, Bool.and_eq_true, decide_eq_true_eq] at skips
    obtain ⟨r, hr, same, does⟩ | ⟨_, impossible, _⟩ := all id (by simp [acts id skips.1])
    · have recorded := does.lastSkippedAt
      rw [if_pos skips.2] at recorded
      exact ⟨r, hr, same, recorded⟩
    · cases impossible
  constructor
  · intro s hs
    rw [List.append_nil] at hs
    obtain ⟨r, hr, rfl⟩ := List.mem_map.mp hs
    simp only [sameId r hr]
    by_cases skips : call.skipsRow r.id = true
    · obtain ⟨r', hr', same, recorded⟩ := skipped r.id skips
      rw [keyed.eq_of_key hr' hr same] at recorded
      simp [skips, recorded]
    · simp only [skips, Bool.false_eq_true, if_false, Nat.add_zero]
      obtain same | ⟨mine, does⟩ := changed r hr
      · rw [same]
        exact records.recorded r hr
      · have recorded := does.lastSkippedAt
        have other : ¬ call.isSkip = true := by
          intro skip
          obtain ⟨id, row⟩ : ∃ id, call.row? = some id := by
            cases call with
            | create => cases skip
            | route => cases skip
            | decide rt now row => exact ⟨row, rfl⟩
          rw [acts id row, List.mem_singleton] at mine
          exact skips (by simp [ReviewCall.skipsRow, row, mine, skip])
        rw [if_neg other] at recorded
        rw [recorded]
        exact records.recorded r hr
  · intro id some_skip
    obtain ⟨r, hr, same⟩ : ∃ r ∈ d.fieldReviews, r.id = id := by
      by_cases before : skips id = 0
      · by_cases skips : call.skipsRow id = true
        · obtain ⟨r, hr, same, _⟩ := skipped id skips
          exact ⟨r, hr, same⟩
        · simp [before, skips] at some_skip
      · exact records.present id before
    refine ⟨f r, List.mem_append_left _ (List.mem_map_of_mem hr), ?_⟩
    rw [sameId r hr, same]

theorem ReviewCall.run_recordsSkips {call : ReviewCall} {skips : Uuid → Nat} (context : Context)
    (valid : ValidReviews d.fieldReviews) (records : RecordsSkips skips d.fieldReviews) :
    RecordsSkips (fun id => skips id +
        if call.skipsRow id && (call.run context d).1.toBool then 1 else 0)
      (call.run context d).2.fieldReviews := by
  by_cases creates : call.creates = true
  · cases call with
    | create ids now extractionId record confidence =>
        constructor
        · intro s hs
          obtain old | ⟨unskipped, fresh⟩ := create_run valid.legal context s hs
          · exact records.recorded s old
          · have never : skips s.id = 0 := by
              by_contra before
              obtain ⟨r, hr, same⟩ := records.present s.id before
              exact fresh r hr same
            simp [unskipped, never, ReviewCall.skipsRow, ReviewCall.row?]
        · intro id before
          obtain ⟨r, hr, rfl⟩ := records.present id before
          obtain ⟨s, hs, evolves, _⟩ := ReviewCall.run_evolves context valid r hr
          exact ⟨s, hs, evolves.origin.id⟩
    | route => cases creates
    | decide => cases creates
  · obtain ⟨e, raised⟩ | ⟨own, result, effect⟩ := call.run_cases context valid.legal
    · rw [raised]
      simpa [Except.toBool] using records
    · have made := effect.recordsSkips valid.table.ids (Bool.eq_false_iff.mpr creates)
        (fun id acts => call.own_of_row? acts result) records
      simpa [result, Except.toBool] using made

/-- In every history that starts without rows the times of skips tell which rows were skipped. -/
theorem reviewHistory_recordsSkips (start : Database) (history : List (Context × ReviewCall)) :
    RecordsSkips (fun id => skipsOn id history { start with fieldReviews := [] })
      (reviewHistory history { start with fieldReviews := [] }).fieldReviews := by
  have none_yet : ValidReviews ({ start with fieldReviews := [] } : Database).fieldReviews :=
    ⟨reviewTable_nil, by simp⟩
  induction history using List.reverseRecOn with
  | nil => exact ⟨by simp [reviewHistory], by simp [skipsOn]⟩
  | append_singleton history entry ih =>
      have valid := reviewHistory_valid history none_yet
      have step := entry.2.run_recordsSkips entry.1 valid ih
      simpa [reviewHistory_append, reviewHistory, skipsOn_append, skipsOn] using step

/-! ### The order of presentation -/

theorem queueRows_sorted (linear : collation.Linear) (d : Database) :
    (queueRows collation d).Pairwise
      (fun a b => queueLe collation a.review b.review = true) :=
  (linear.queueRanks.comap JoinedReview.review).sorted _

theorem mem_queueRows {row : JoinedReview} : row ∈ queueRows collation d ↔
    row ∈ joinedReviews d ∧ row.review.reviewState = .routed := by
  simp [queueRows]

theorem review_of_mem_joinedReviews {row : JoinedReview} (h : row ∈ joinedReviews d) :
    row.review ∈ d.fieldReviews := by
  simp only [joinedReviews, List.mem_flatMap, List.mem_map] at h
  obtain ⟨r, hr, _, _, _, _, rfl⟩ := h
  exact hr

/-- A skipped row is never ahead of one that was not. -/
theorem queueRows_skipped {skips : Uuid → Nat} (linear : collation.Linear)
    (records : RecordsSkips skips d.fieldReviews) :
    (queueRows collation d).Pairwise
      (fun a b => skips a.review.id ≠ 0 → skips b.review.id ≠ 0) := by
  refine (queueRows_sorted linear d).imp_of_mem fun {a b} ha hb ahead => ?_
  have recorded : ∀ row ∈ queueRows collation d,
      row.review.lastSkippedAt = none ↔ skips row.review.id = 0 := fun row hrow =>
    records.recorded _ (review_of_mem_joinedReviews (mem_queueRows.mp hrow).1)
  intro skipped unskipped
  exact skipped ((recorded a ha).mp (unskipped_of_queueLe ahead ((recorded b hb).mpr unskipped)))

/-- Skipping what is presented goes through the routed rows round after round in one cyclic
order, that begins with the rows never skipped, as they rank for routing; and in every history
of calls such rows are presented before all that were skipped. -/
theorem queue_presentation (linear : collation.Linear) :
    (∀ (d : Database) (skips : Nat → SkipRequest), LegalReviews d.fieldReviews → Joined d →
      (∀ k, (skips k).now < (skips (k + 1)).now) →
      SkippedBefore (skips 0).now d.fieldReviews →
        ∃ order : List Uuid, order.Perm (routedIds d.fieldReviews) ∧ order.Nodup ∧
          (∃ behind, order = ((d.fieldReviews.filter fun r => r.queued &&
            r.lastSkippedAt.isNone).mergeSort (rankLe collation)).map FieldReview.id ++ behind) ∧
          ∀ k, (List.range (routedIds d.fieldReviews).length).map (fun i =>
              presented collation (skips (k + i)).context (afterSkips collation skips d (k + i))) =
            (order.rotate k).map some) ∧
      ∀ (start : Database) (history : List (Context × ReviewCall)) (context : Context),
        let d := reviewHistory history { start with fieldReviews := [] }
        let skips := fun id => skipsOn id history { start with fieldReviews := [] }
        (∀ limit offset, ∃ items,
          (listQueue collation limit offset).serial postgres context ⟨d, false⟩ =
            (.ok items, ⟨d, false⟩) ∧
          items.Pairwise (fun a b => skips a.id ≠ 0 → skips b.id ≠ 0)) ∧
        ∀ id, presented collation context d = some id → skips id ≠ 0 →
          ∀ row ∈ joinedReviews d, row.review.reviewState = .routed → skips row.review.id ≠ 0 := by
  constructor
  · intro d skips legal joined increasing before
    have keyed := legal.table.ids
    have sorts := List.mergeSort_perm (d.fieldReviews.filter FieldReview.queued)
      (queueLe collation)
    have ids := sorts.map FieldReview.id
    refine ⟨(reviewQueue collation d.fieldReviews).map FieldReview.id, ids,
      ids.nodup_iff.mpr (List.Nodup.sublist (List.filter_sublist.map _) keyed), ?_, ?_⟩
    · have parts := congrArg (List.map FieldReview.id) (reviewQueue_parts linear keyed)
      rw [List.map_append] at parts
      exact ⟨_, parts⟩
    · exact Skippable.presentations linear increasing ⟨legal, joined, before⟩
  · intro start history context d skips
    have records := reviewHistory_recordsSkips start history
    have ordered := queueRows_skipped linear records
    constructor
    · intro limit offset
      refine ⟨_, listQueue_serial collation limit offset context, ?_⟩
      rw [List.pairwise_map]
      exact (ordered.sublist (List.drop_sublist _ _)).sublist (List.take_sublist _ _)
    · intro id shown skipped row joined routed
      have waiting : row ∈ queueRows collation d := mem_queueRows.mpr ⟨joined, routed⟩
      rw [presented_eq_head] at shown
      cases queue : queueRows collation d with
      | nil =>
          rw [queue] at waiting
          cases waiting
      | cons first rest =>
          rw [queue, List.map_cons, List.head?_cons] at shown
          cases shown
          rw [show queueRows collation (reviewHistory history { start with fieldReviews := [] }) =
            first :: rest from queue] at ordered
          obtain rfl | later := List.mem_cons.mp (queue ▸ waiting)
          · exact skipped
          · exact (List.pairwise_cons.mp ordered).1 row later skipped

/-! Two routed rows of one extraction, which are skipped in turn. -/

def routedRow (id : Uuid) (field : String) (confidence : ℚ) : FieldReview :=
  { openRow id field confidence with reviewState := .routed, routedAt := some 1 }

def routedRows : Database where
  sources := []
  documents := [⟨3, 1, "https://example.com", "", "", .html, 0, "local", [], "", none, 0⟩]
  jobs := []
  extractions := [⟨7, 3, "v0.7", "anthropic", "m", "off", "r", .complete, none, none, "model", 1,
    [], [], none, none, 0⟩]
  fieldReviews := [routedRow 1 "title" (3/10), routedRow 2 "status" (2/5)]

theorem mem_routedRows {r : FieldReview} :
    r ∈ routedRows.fieldReviews ↔
      r = routedRow 1 "title" (3/10) ∨ r = routedRow 2 "status" (2/5) := by
  simp [routedRows]

theorem routedRows_legal : LegalReviews routedRows.fieldReviews := by
  refine ⟨⟨?_, ?_⟩, ?_⟩
  · show [1, 2].Nodup
    decide
  · show [(7, "title"), (7, "status")].Nodup
    decide
  · intro r hr
    obtain rfl | rfl := mem_routedRows.mp hr <;>
      simp [FieldReview.checked_iff, routedRow, openRow]

theorem routedRows_joined : Joined routedRows where
  extractions := List.nodup_singleton _
  documents := List.nodup_singleton _
  extractionOf r hr := by
    obtain rfl | rfl := mem_routedRows.mp hr <;> exact ⟨_, List.mem_singleton.mpr rfl, rfl⟩
  documentOf x hx := by
    obtain rfl := List.mem_singleton.mp hx
    exact ⟨_, List.mem_singleton.mpr rfl, rfl⟩

theorem queue_presentation_two_rows : ∃ order : List Uuid, order.Perm [1, 2] ∧
    ∀ k, (List.range 2).map (fun i => presented byCodePoint ⟨.empty, []⟩
        (afterSkips byCodePoint (fun k => ⟨.ascii, ⟨.empty, []⟩, k, none, .null, none⟩)
          routedRows (k + i))) =
      (order.rotate k).map some := by
  obtain ⟨order, perm, _, _, rounds⟩ := (queue_presentation byCodePoint_linear).1 routedRows
    (fun k => ⟨.ascii, ⟨.empty, []⟩, k, none, .null, none⟩) routedRows_legal routedRows_joined
    (fun k => by simp) (fun r hr time last => by
      obtain rfl | rfl := mem_routedRows.mp hr <;> cases last)
  exact ⟨order, perm, rounds⟩

end IncidentPipeline
