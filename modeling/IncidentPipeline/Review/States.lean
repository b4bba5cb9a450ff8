import IncidentPipeline.Db.Tables
import IncidentPipeline.Foundation.Serial
import IncidentPipeline.Review.Fields
import IncidentPipeline.Review.Routing

/-!
# The states of a review row

Three writers share `field_reviews`: the insert of a complete extraction, the routing
pass, and the decision of a reviewer. `ReviewCall.Does` says what each may do to a row,
`ReviewCall.effect` that the programs do that and nothing else, and everything a row
keeps over a history of calls follows from it.
-/

namespace IncidentPipeline

open Python Tables Transactions

/-! ### Valid rows -/

/-- What is recorded on a row, by the state it is in. -/
structure FieldReview.Valid (r : FieldReview) : Prop where
  decision : r.decision.isSome = true ↔ r.reviewState = .reviewed
  reviewer : r.reviewer.isSome = true ↔ r.reviewState = .reviewed
  reviewedAt : r.reviewedAt.isSome = true ↔ r.reviewState = .reviewed
  corrected : r.correctedValue.isSome = true ↔ r.decision = some .corrected
  differs : ∀ value, r.correctedValue = some value → value.pyEq r.modelValue = false
  routed : r.reviewState = .routed → r.routedAt.isSome = true
  unrouted : r.reviewState = .unreviewed → r.routedAt = none

theorem FieldReview.checked_iff {r : FieldReview} :
    r.Checked ↔
      (r.reviewState = .reviewed ↔
        r.decision.isSome = true ∧ r.reviewer.isSome = true ∧ r.reviewedAt.isSome = true) ∧
      (r.reviewState = .reviewed ∨
        r.decision = none ∧ r.reviewer = none ∧ r.reviewedAt = none) ∧
      (r.decision = some .corrected ↔ r.correctedValue.isSome = true) ∧
      (r.reviewState ≠ .routed ∨ r.routedAt.isSome = true) := by
  simp only [FieldReview.Checked, FieldReview.rowChecks, List.forall_mem_cons, decide_eq_true_eq,
    List.not_mem_nil, false_imp_iff, implies_true, and_true, Option.isNone_iff_eq_none]

/-- Without a decision there is no corrected value. -/
theorem FieldReview.Checked.no_value {r : FieldReview} (checked : r.Checked)
    (undecided : r.decision = none) : r.correctedValue = none := by
  have corrected := (FieldReview.checked_iff.mp checked).2.2.1
  rw [undecided] at corrected
  simpa using corrected

/-- A row that is not reviewed has no decision, no reviewer and no time of review. -/
theorem FieldReview.Checked.undecided {r : FieldReview} (checked : r.Checked)
    (open_ : r.reviewState ≠ .reviewed) :
    r.decision = none ∧ r.reviewer = none ∧ r.reviewedAt = none :=
  (FieldReview.checked_iff.mp checked).2.1.resolve_left open_

/-- The constraints on a single row hold of every valid row. -/
theorem FieldReview.Valid.checked {r : FieldReview} (valid : r.Valid) : r.Checked := by
  have absent : ∀ {α : Type} {o : Option α}, (o.isSome = true ↔ r.reviewState = .reviewed) →
      r.reviewState ≠ .reviewed → o = none := fun iff open_ =>
    Option.not_isSome_iff_eq_none.mp fun present => open_ (iff.mp present)
  refine FieldReview.checked_iff.mpr ⟨?_, ?_, valid.corrected.symm,
    Decidable.not_or_of_imp valid.routed⟩
  · rw [valid.decision, valid.reviewer, valid.reviewedAt, and_self, and_self]
  · by_cases reviewed : r.reviewState = .reviewed
    · exact .inl reviewed
    · exact .inr ⟨absent valid.decision reviewed, absent valid.reviewer reviewed,
        absent valid.reviewedAt reviewed⟩

/-- A table that meets all its constraints. -/
structure LegalReviews (rows : List FieldReview) : Prop where
  table : ReviewTable rows
  checked : ∀ r ∈ rows, r.Checked

/-- A legal table of valid rows. -/
structure ValidReviews (rows : List FieldReview) : Prop where
  table : ReviewTable rows
  valid : ∀ r ∈ rows, r.Valid

theorem ValidReviews.legal {rows : List FieldReview} (valid : ValidReviews rows) :
    LegalReviews rows :=
  ⟨valid.table, fun r hr => (valid.valid r hr).checked⟩

/-- The columns that no call writes. -/
structure FieldReview.SameOrigin (r s : FieldReview) : Prop where
  id : s.id = r.id
  extractionId : s.extractionId = r.extractionId
  field : s.field = r.field
  confidence : s.confidence = r.confidence
  modelValue : s.modelValue = r.modelValue
  createdAt : s.createdAt = r.createdAt

theorem FieldReview.SameOrigin.sameKeys {r s : FieldReview} (h : r.SameOrigin s) :
    r.SameKeys s :=
  ⟨h.id, Prod.ext h.extractionId h.field⟩

theorem FieldReview.route_sameOrigin (r : FieldReview) (now : Time) : r.SameOrigin (r.route now) :=
  ⟨rfl, rfl, rfl, rfl, rfl, rfl⟩

theorem FieldReview.skip_sameOrigin (r : FieldReview) (now : Time) : r.SameOrigin (r.skip now) :=
  ⟨rfl, rfl, rfl, rfl, rfl, rfl⟩

theorem FieldReview.accept_sameOrigin (r : FieldReview) (now : Time) (reviewer : String)
    (note : Option String) : r.SameOrigin (r.accept now reviewer note) :=
  ⟨rfl, rfl, rfl, rfl, rfl, rfl⟩

theorem FieldReview.correct_sameOrigin (r : FieldReview) (now : Time) (value : Json)
    (reviewer : String) (note : Option String) :
    r.SameOrigin (r.correct now value reviewer note) :=
  ⟨rfl, rfl, rfl, rfl, rfl, rfl⟩

/-- A row as the insert leaves it. -/
structure FieldReview.Fresh (r : FieldReview) : Prop where
  state : r.reviewState = .unreviewed
  undecided : r.decision = none ∧ r.correctedValue = none ∧ r.reviewer = none ∧
    r.reviewedAt = none
  unrouted : r.routedAt = none

theorem FieldReview.Fresh.valid {r : FieldReview} (fresh : r.Fresh) : r.Valid := by
  obtain ⟨state, ⟨decision, corrected, reviewer, reviewedAt⟩, unrouted⟩ := fresh
  constructor <;> simp_all

/-! ### What a call does to a row -/

/-- A call of one of the three writers. -/
inductive ReviewCall where
  | create (ids : Nat → Uuid) (now : Time) (extractionId : Uuid) (record confidence : Json)
  | route (collation : Collation) (now : Time) (floor : ℚ) (budget : Option Int)
  | decide (rt : Runtime) (now : Time) (id : Uuid) (action : Action) (reviewer : Option String)
      (correctedValue : Json) (note : Option String)

/-- The program of a call. It returns the rows that are the call's own: the ones
inserted, the ones routed, the one decided. -/
def ReviewCall.program : ReviewCall → Db (List Uuid)
  | .create ids now extractionId record confidence => do
      let _ ← createFieldReviews ids now extractionId record confidence
      return (fieldReviewRows ids extractionId now record confidence).map FieldReview.id
  | .route collation now floor budget => do
      let result ← routePending collation now floor budget
      return result.routed.map RankedField.id
  | .decide rt now id action reviewer correctedValue note => do
      let _ ← recordDecision rt now id action reviewer correctedValue note
      return [id]

/-- What a call does to an existing row of its own. -/
def ReviewCall.Does : ReviewCall → FieldReview → FieldReview → Prop
  | .create .., _, _ => False
  | .route _ now floor _, r, s => r.eligible floor = true ∧ s = r.route now
  | .decide _ now _ .skip _ _ _, r, s => r.reviewState = .routed ∧ s = r.skip now
  | .decide _ now _ .accept _ _ note, r, s =>
      r.reviewState ≠ .reviewed ∧ ∃ reviewer, s = r.accept now reviewer note
  | .decide _ now _ .correct _ _ note, r, s =>
      r.reviewState ≠ .reviewed ∧
        ∃ value reviewer, value.pyEq r.modelValue = false ∧ s = r.correct now value reviewer note

/-- What a call inserts. -/
def ReviewCall.Inserts : ReviewCall → FieldReview → Prop
  | .create .., r => r.Fresh
  | _, _ => False

variable {call : ReviewCall} {r s : FieldReview}

theorem FieldReview.eligible_iff {floor : ℚ} :
    r.eligible floor = true ↔ r.reviewState = .unreviewed ∧ r.confidence < floor := by
  simp [FieldReview.eligible]

theorem ReviewCall.Does.sameOrigin (h : call.Does r s) : r.SameOrigin s := by
  unfold ReviewCall.Does at h
  split at h
  · exact h.elim
  · obtain ⟨_, rfl⟩ := h
    apply FieldReview.route_sameOrigin
  · obtain ⟨_, rfl⟩ := h
    apply FieldReview.skip_sameOrigin
  · obtain ⟨_, _, rfl⟩ := h
    apply FieldReview.accept_sameOrigin
  · obtain ⟨_, _, _, _, rfl⟩ := h
    apply FieldReview.correct_sameOrigin

theorem ReviewCall.Does.valid (h : call.Does r s) (valid : r.Valid) : s.Valid := by
  unfold ReviewCall.Does at h
  split at h
  · exact h.elim
  · -- routed: nothing was recorded on the row before
    obtain ⟨eligible, rfl⟩ := h
    obtain ⟨state, _⟩ := FieldReview.eligible_iff.mp eligible
    obtain ⟨decision, reviewer, reviewedAt, corrected, differs, _, _⟩ := valid
    constructor <;> simp_all [FieldReview.route]
  · obtain ⟨_, rfl⟩ := h
    exact ⟨valid.decision, valid.reviewer, valid.reviewedAt, valid.corrected, valid.differs,
      valid.routed, valid.unrouted⟩
  · -- accepted: no corrected value was there, since no decision was
    obtain ⟨undecided, _, rfl⟩ := h
    have no_decision : r.decision ≠ some .corrected := fun h =>
      undecided (valid.decision.mp (by rw [h]; rfl))
    have no_value : ¬ r.correctedValue.isSome = true := fun h =>
      no_decision (valid.corrected.mp h)
    constructor <;> simp_all [FieldReview.accept]
  · obtain ⟨undecided, value, _, differs, rfl⟩ := h
    constructor <;> simp_all [FieldReview.correct]

/-- The constraints on a single row survive whatever a call does to it. -/
theorem ReviewCall.Does.checked (h : call.Does r s) (checked : r.Checked) : s.Checked := by
  unfold ReviewCall.Does at h
  split at h
  · exact h.elim
  · obtain ⟨eligible, rfl⟩ := h
    obtain ⟨state, _⟩ := FieldReview.eligible_iff.mp eligible
    obtain ⟨decision, reviewer, reviewedAt⟩ := checked.undecided (by simp [state])
    simp [FieldReview.checked_iff, FieldReview.route, decision, reviewer, reviewedAt,
      checked.no_value decision]
  · obtain ⟨_, rfl⟩ := h
    exact checked
  · obtain ⟨undecided, _, rfl⟩ := h
    have no_value := checked.no_value (checked.undecided undecided).1
    simp [FieldReview.checked_iff, FieldReview.accept, no_value]
  · obtain ⟨_, _, _, _, rfl⟩ := h
    simp [FieldReview.checked_iff, FieldReview.correct]

/-! ### What a call does to the table -/

/-- The rows in `own`, and no others, were inserted or changed as the call may. -/
structure Effect (call : ReviewCall) (own : List Uuid) (d d' : Database) : Prop where
  changed : ∃ (f : FieldReview → FieldReview) (new : List FieldReview),
    d' = { d with fieldReviews := d.fieldReviews.map f ++ new } ∧
    (∀ r ∈ d.fieldReviews, f r = r ∨ (r.id ∈ own ∧ call.Does r (f r))) ∧
    (∀ r ∈ new, r.id ∈ own ∧ call.Inserts r) ∧
    ∀ id ∈ own, (∃ r ∈ d.fieldReviews, r.id = id ∧ call.Does r (f r)) ∨ ∃ r ∈ new, r.id = id
  table : ReviewTable d'.fieldReviews

/-- A failed call left the tables alone, a successful one had the effect. -/
def Effective (call : ReviewCall) (d : Database) (result : Except Exc (List Uuid))
    (st : Local Database) : Prop :=
  match result with
  | .error _ => st.db = d
  | .ok own => Effect call own d st.db

theorem fieldReviewRows_fresh {ids : Nat → Uuid} {extractionId : Uuid} {now : Time}
    {record confidence : Json} {r : FieldReview}
    (h : r ∈ fieldReviewRows ids extractionId now record confidence) : r.Fresh := by
  obtain ⟨_, _, rfl⟩ := List.mem_map.mp h
  exact ⟨rfl, ⟨rfl, rfl, rfl, rfl⟩, rfl⟩

theorem createFieldReviews_effect {ids : Nat → Uuid} {now : Time} {extractionId : Uuid}
    {record confidence : Json} {context : Context} {d : Database}
    (legal : LegalReviews d.fieldReviews) :
    (ReviewCall.create ids now extractionId record confidence).program.ends postgres context
      (Effective (.create ids now extractionId record confidence) d) ⟨d, false⟩ := by
  refine Prog.ends_bind (Prog.ends_bind (Prog.ends_execute (fun e aborted => rfl) ?_))
  intro reply ops d' _ answer written
  simp only [insertFieldReviewsSql] at answer
  split at answer
  · cases answer
  · cases answer
    obtain ⟨rfl, table⟩ := replay_insertFieldReviews legal.table written
    refine ⟨⟨id, _, by simp; rfl, fun r _ => .inl rfl, ?_, ?_⟩, table⟩
    · exact fun r hr => ⟨List.mem_map_of_mem hr, fieldReviewRows_fresh hr⟩
    · intro own hown
      obtain ⟨r, hr, same⟩ := List.mem_map.mp hown
      exact .inr ⟨r, hr, same⟩

/-! ### The rows of a new extraction -/

section Create

variable {ids : Nat → Uuid} {now : Time} {extractionId : Uuid} {record confidence : Json}
  {rows : List FieldReview}

/-- The rows of a new extraction go in under new identifiers. -/
theorem LegalReviews.create (legal : LegalReviews rows) (distinct : Function.Injective ids)
    (fresh : ∀ r ∈ rows, ∀ n, r.id ≠ ids n) (new : ∀ r ∈ rows, r.extractionId ≠ extractionId) :
    LegalReviews (rows ++ fieldReviewRows ids extractionId now record confidence) := by
  have keyed : ∀ {κ : Type} {key : FieldReview → κ}, Keyed key rows →
      Keyed key (fieldReviewRows ids extractionId now record confidence) →
      (∀ r ∈ rows, ∀ s ∈ fieldReviewRows ids extractionId now record confidence, key r ≠ key s) →
      Keyed key (rows ++ fieldReviewRows ids extractionId now record confidence) := by
    intro κ key old added apart
    rw [Keyed, List.map_append, List.nodup_append]
    refine ⟨old, added, fun k hk l hl => ?_⟩
    obtain ⟨r, hr, rfl⟩ := List.mem_map.mp hk
    obtain ⟨s, hs, rfl⟩ := List.mem_map.mp hl
    exact apart r hr s hs
  refine ⟨⟨keyed legal.table.ids ?_ ?_, keyed legal.table.slots ?_ ?_⟩, fun r hr => ?_⟩
  · have drawn : (fieldReviewRows ids extractionId now record confidence).map FieldReview.id =
        (recordFields.zipIdx.map Prod.snd).map ids := by
      rw [fieldReviewRows, List.map_map, List.map_map]
      rfl
    rw [Keyed, drawn, List.zipIdx_map_snd]
    exact List.Nodup.map distinct List.nodup_range'
  · intro r hr s hs
    obtain ⟨f, _, rfl⟩ := List.mem_map.mp hs
    exact fresh r hr f.2
  · have named : ((fieldReviewRows ids extractionId now record confidence).map
        FieldReview.slot).map Prod.snd = recordFields := by
      rw [fieldReviewRows, List.map_map, List.map_map]
      exact List.zipIdx_map_fst 0 recordFields
    exact List.Nodup.of_map Prod.snd (named ▸ recordFields_nodup)
  · intro r hr s hs same
    obtain ⟨f, _, rfl⟩ := List.mem_map.mp hs
    exact new r hr (congrArg Prod.fst same)
  · obtain old | added := List.mem_append.mp hr
    · exact legal.checked r old
    · exact (fieldReviewRows_fresh added).valid.checked

theorem createFieldReviews_computes {context : Context} {d : Database}
    (legal : LegalReviews d.fieldReviews) (distinct : Function.Injective ids)
    (fresh : ∀ r ∈ d.fieldReviews, ∀ n, r.id ≠ ids n)
    (new : ∀ r ∈ d.fieldReviews, r.extractionId ≠ extractionId)
    (taken : jsonHasNul record = false) :
    (createFieldReviews ids now extractionId record confidence).Computes postgres context d
      (.ok ((fieldReviewRows ids extractionId now record confidence).length,
        { d with fieldReviews :=
          d.fieldReviews ++ fieldReviewRows ids extractionId now record confidence })) := by
  have created := insertFieldReviews_replay
    (@LegalReviews.create ids now extractionId record confidence _ legal distinct fresh new).table
    fun r hr => (fieldReviewRows_fresh hr).valid.checked
  have sent : (insertFieldReviewsSql
      (fieldReviewRows ids extractionId now record confidence)).refused = none := by
    refine refusedText_eq_none.mpr fun s hs => ?_
    obtain ⟨r, hr, rfl⟩ := List.mem_map.mp hs
    obtain ⟨f, hf, rfl⟩ := List.mem_map.mp hr
    have known : ∀ name ∈ recordFields, hasNul name = false := by decide
    exact known _ (List.fst_mem_of_mem_zipIdx hf)
  have clean : ¬ (fieldReviewRows ids extractionId now record confidence).any
      (fun r => jsonHasNul r.modelValue) = true := by
    rw [List.any_eq_true]
    rintro ⟨r, hr, nul⟩
    obtain ⟨f, _, rfl⟩ := List.mem_map.mp hr
    exact Bool.false_ne_true ((jsonHasNul_memberOf taken f.1).symm.trans nul)
  exact Prog.computes_bind_ok (Prog.computes_execute sent (if_neg clean) created) rfl

end Create

/-! ### The calls of a reviewer and of the pass -/

theorem ends_getFieldReview {id : Uuid} {context : Context} {d : Database}
    {post : Except Exc FieldReview → Local Database → Prop}
    (missing : d.fieldReviews.find? (·.id = id) = none →
      post (.error (fieldReviewNotFound id)) ⟨d, false⟩)
    (found : ∀ r, d.fieldReviews.find? (·.id = id) = some r → post (.ok r) ⟨d, false⟩) :
    (getFieldReview id).ends postgres context post ⟨d, false⟩ := by
  refine Prog.ends_bind ?_
  rw [selectFieldReview, Prog.ends, serial_select]
  cases read : d.fieldReviews.find? (·.id = id) with
  | none => exact missing read
  | some r => exact found r read

/-- The rows after an update by `id`. -/
def updateRow (id : Uuid) (set : FieldReview → FieldReview) (r : FieldReview) : FieldReview :=
  if r.id = id then set r else r

/-- The statement that records an action, with the read of the row that follows it. -/
theorem recordAction_effect {call : ReviewCall} {id : Uuid} {texts : List String}
    {json : Option Json} {set : FieldReview → FieldReview} {context : Context} {d : Database}
    {current : FieldReview}
    (table : ReviewTable d.fieldReviews) (same : ∀ r : FieldReview, r.SameKeys (set r))
    (read : d.fieldReviews.find? (·.id = id) = some current)
    (allowed : call.Does current (set current)) (checked : (set current).Checked) :
    (Prog.bind (.execute (updateFieldReviewSql id texts json set)) fun _ => getFieldReview id).ends
      postgres context
      (fun result st => Effective call d (result.map fun _ => [id]) st) ⟨d, false⟩ := by
  have member := List.mem_of_find?_eq_some read
  have key : current.id = id := by simpa using List.find?_some read
  have only : ∀ r ∈ d.fieldReviews, r.id = id → r = current := fun r hr h =>
    table.ids.eq_of_key hr member (h.trans key.symm)
  have updated : updateRow id set current = set current := if_pos key
  have keeps : ∀ r : FieldReview, r.SameKeys (updateRow id set r) := by
    intro r
    rw [updateRow]
    split
    · exact same r
    · exact ⟨rfl, rfl⟩
  refine Prog.ends_bind (Prog.ends_execute (fun e aborted => rfl) ?_)
  intro reply ops d' _ answer written
  simp only [updateFieldReviewSql] at answer
  split at answer
  · cases answer
  cases answer
  have mapped := @ReviewTable.replay_update d table (fun r => decide (r.id = id)) set
    (fun r _ => same r) (fun r hr h => by rwa [only r hr (by simpa using h)])
  simp only [decide_eq_true_eq] at mapped
  rw [mapped, Except.ok.injEq] at written
  subst written
  refine ends_getFieldReview ?_ ?_
  · -- the row is still there to be read
    intro gone
    have kept := List.find?_eq_none.mp gone _ (List.mem_map_of_mem member)
    rw [if_pos key] at kept
    simp [(same current).1, key] at kept
  · intro r _
    refine ⟨⟨updateRow id set, [], by simp [updateRow], ?_, by simp, ?_⟩,
      table.map fun r _ => keeps r⟩
    · intro r hr
      by_cases h : r.id = id
      · rw [only r hr h, updated]
        exact .inr ⟨by simp [key], allowed⟩
      · exact .inl (if_neg h)
    · intro own hown
      rw [List.mem_singleton.mp hown]
      exact .inl ⟨current, member, key, by rw [updated]; exact allowed⟩

theorem recordDecision_effect {rt : Runtime} {now : Time} {id : Uuid} {action : Action}
    {reviewer : Option String} {correctedValue : Json} {note : Option String} {context : Context}
    {d : Database} (legal : LegalReviews d.fieldReviews) :
    (ReviewCall.decide rt now id action reviewer correctedValue note).program.ends postgres context
      (Effective (.decide rt now id action reviewer correctedValue note) d) ⟨d, false⟩ := by
  refine Prog.ends_bind (Prog.ends_mono (?_ : Prog.ends postgres context _
    (fun result st => Effective (.decide rt now id action reviewer correctedValue note) d
      (result.map fun _ => [id]) st) _) fun result st h => by cases result <;> exact h)
  refine Prog.ends_bind (ends_getFieldReview (fun _ => rfl) ?_)
  intro current read
  have checked := legal.checked current (List.mem_of_find?_eq_some read)
  -- one update, guarded by what the action asks of the row
  have records : ∀ {texts : List String} {json : Option Json} {set : FieldReview → FieldReview},
      (∀ r : FieldReview, r.SameKeys (set r)) →
      (ReviewCall.decide rt now id action reviewer correctedValue note).Does current
        (set current) →
      (Prog.bind (.execute (updateFieldReviewSql id texts json set)) fun _ =>
        getFieldReview id).ends postgres context _ ⟨d, false⟩ := fun same allowed =>
    recordAction_effect legal.table same read allowed (allowed.checked checked)
  dsimp only
  by_cases reviewed : current.reviewState = .reviewed
  · rw [if_pos reviewed]
    exact Prog.ends_raise rfl
  rw [if_neg reviewed]
  generalize strip (reviewer.getD "") = name
  cases action with
  | skip =>
      by_cases queued : current.reviewState = .routed
      · simp only [queued, ne_eq, not_true_eq_false, if_true, if_false, Prog.bind_eq]
        exact records (fun r => (r.skip_sameOrigin now).sameKeys) ⟨queued, rfl⟩
      · simp only [queued, ne_eq, not_false_eq_true, if_true]
        exact Prog.ends_raise rfl
  | accept =>
      by_cases named : name = ""
      · simp only [named, reduceCtorEq, if_true, if_false]
        exact Prog.ends_raise rfl
      · simp only [named, reduceCtorEq, if_true, if_false, Prog.bind_eq]
        exact records (fun r => (r.accept_sameOrigin now _ note).sameKeys) ⟨reviewed, _, rfl⟩
  | correct =>
      by_cases named : name = ""
      · simp only [named, reduceCtorEq, if_true, if_false]
        exact Prog.ends_raise rfl
      simp only [named, reduceCtorEq, if_false, Prog.bind_eq]
      refine Prog.ends_bind ?_
      cases validateCorrection rt current.field correctedValue with
      | error e => exact Prog.ends_ret rfl
      | ok value =>
          refine Prog.ends_ret ?_
          dsimp only
          cases differs : value.pyEq current.modelValue with
          | true => exact Prog.ends_raise rfl
          | false =>
              simp only [Bool.false_eq_true, if_false]
              exact records (fun r => (r.correct_sameOrigin now value name note).sameKeys)
                ⟨reviewed, value, name, differs, rfl⟩

theorem mem_of_mem_takeLimit {α : Type} {limit : Option Nat} {rows : List α} {a : α}
    (h : a ∈ takeLimit limit rows) : a ∈ rows := by
  cases limit with
  | none => exact h
  | some n => exact List.mem_of_mem_take h

theorem mem_rankedRows {collation : Collation} {floor : ℚ} {rows : List FieldReview}
    {r : FieldReview} :
    r ∈ rankedRows collation floor rows ↔ r ∈ rows ∧ r.eligible floor = true := by
  simp [rankedRows]

/-- The identifiers that the sub-select of the pass returns. -/
def chosenIds (collation : Collation) (floor : ℚ) (limit : Option Nat)
    (rows : List FieldReview) : List Uuid :=
  (takeLimit limit (rankedRows collation floor rows)).map FieldReview.id

/-- The row versions after a pass. -/
def routeRow (now : Time) (chosen : List Uuid) (r : FieldReview) : FieldReview :=
  if r.id ∈ chosen then r.route now else r

/-- Only eligible rows are chosen. -/
theorem eligible_of_chosen {collation : Collation} {floor : ℚ} {limit : Option Nat}
    {rows : List FieldReview} (keyed : Keyed FieldReview.id rows) {r : FieldReview}
    (member : r ∈ rows) (chosen : r.id ∈ chosenIds collation floor limit rows) :
    r.eligible floor = true := by
  obtain ⟨s, hs, same⟩ := List.mem_map.mp chosen
  obtain ⟨member', eligible⟩ := mem_rankedRows.mp (mem_of_mem_takeLimit hs)
  rwa [keyed.eq_of_key member member' same.symm]

/-- The `UPDATE` of the pass on a legal table: it cannot fail. -/
theorem route_replay {collation : Collation} {now : Time} {floor : ℚ} {limit : Option Nat}
    {d : Database} (legal : LegalReviews d.fieldReviews) :
    postgres.replay
      ((d.fieldReviews.filter (·.id ∈ chosenIds collation floor limit d.fieldReviews)).map
        fun r => .updateFieldReview r (r.route now)) d =
      .ok { d with fieldReviews :=
        d.fieldReviews.map (routeRow now (chosenIds collation floor limit d.fieldReviews)) } := by
  have mapped := @ReviewTable.replay_update d legal.table
    (fun r => decide (r.id ∈ chosenIds collation floor limit d.fieldReviews))
    (fun r => r.route now) (fun r _ => (r.route_sameOrigin now).sameKeys) (by
      intro r hr chosen
      have eligible := eligible_of_chosen legal.table.ids hr (by simpa using chosen)
      have does : (ReviewCall.route collation now floor none).Does r (r.route now) :=
        ⟨eligible, rfl⟩
      exact does.checked (legal.checked r hr))
  simp only [decide_eq_true_eq] at mapped
  exact mapped

theorem routePending_effect {collation : Collation} {now : Time} {floor : ℚ}
    {budget : Option Int} {context : Context} {d : Database}
    (legal : LegalReviews d.fieldReviews) :
    (ReviewCall.route collation now floor budget).program.ends postgres context
      (Effective (.route collation now floor budget) d) ⟨d, false⟩ := by
  refine Prog.ends_bind ?_
  rw [routePending]
  split
  · exact Prog.ends_raise rfl
  refine Prog.ends_bind (ends_select (fun _ => rfl) ?_)
  refine Prog.ends_bind (ends_select (fun _ => rfl) ?_)
  refine Prog.ends_bind (ends_select (fun _ => rfl) ?_)
  dsimp only
  split
  · -- nothing may be routed
    refine Prog.ends_ret (Prog.ends_ret ⟨⟨id, [], by simp, fun r _ => .inl rfl, by simp, ?_⟩,
      legal.table⟩)
    simp
  · generalize routingLimit budget (outstandingRows d.fieldReviews) = limit
    refine Prog.ends_bind (Prog.ends_execute (fun _ _ => rfl) ?_)
    intro reply ops d' _ answer written
    cases answer
    have replayed := @route_replay collation now floor limit d legal
    have allowed := fun {r : FieldReview} => @eligible_of_chosen collation floor limit
      d.fieldReviews legal.table.ids r
    rw [chosenIds] at replayed allowed
    generalize (takeLimit limit (rankedRows collation floor d.fieldReviews)).map FieldReview.id =
      chosen at replayed allowed written
    rw [replayed, Except.ok.injEq] at written
    subst written
    have own : ∀ id, id ∈ ((((d.fieldReviews.filter (·.id ∈ chosen)).map (·.route now)).map
        FieldReview.ranked).mergeSort resultLe).map RankedField.id ↔
          ∃ r ∈ d.fieldReviews, r.id ∈ chosen ∧ r.id = id := by
      simp [FieldReview.ranked, FieldReview.route, and_assoc]
    refine Prog.ends_ret (Prog.ends_ret ⟨⟨routeRow now chosen, [], by simp, ?_, by simp, ?_⟩, ?_⟩)
    · intro r hr
      by_cases h : r.id ∈ chosen
      · rw [routeRow, if_pos h]
        exact .inr ⟨(own r.id).mpr ⟨r, hr, h, rfl⟩, allowed hr h, rfl⟩
      · exact .inl (if_neg h)
    · intro id hid
      obtain ⟨r, hr, h, rfl⟩ := (own id).mp hid
      exact .inl ⟨r, hr, rfl, by rw [routeRow, if_pos h]; exact ⟨allowed hr h, rfl⟩⟩
    · refine legal.table.map fun r _ => ?_
      rw [routeRow]
      split
      · exact (r.route_sameOrigin now).sameKeys
      · exact ⟨rfl, rfl⟩

theorem ReviewCall.effect {context : Context} {d : Database}
    (legal : LegalReviews d.fieldReviews) :
    call.program.ends postgres context (Effective call d) ⟨d, false⟩ := by
  cases call with
  | create => exact createFieldReviews_effect legal
  | route => exact routePending_effect legal
  | decide => exact recordDecision_effect legal

/-! ### Rows over a history of calls -/

/-- How a row may differ from an earlier version of itself. -/
structure FieldReview.Evolves (r s : FieldReview) : Prop where
  origin : r.SameOrigin s
  state : s.reviewState = r.reviewState ∨
    (r.reviewState = .unreviewed ∧ s.reviewState = .routed) ∨
    (r.reviewState = .unreviewed ∧ s.reviewState = .reviewed) ∨
    (r.reviewState = .routed ∧ s.reviewState = .reviewed)
  frozen : r.reviewState = .reviewed → s = r
  routedAt : ∀ t, r.routedAt = some t → s.routedAt = some t

theorem FieldReview.SameOrigin.trans {r s t : FieldReview} (h : r.SameOrigin s)
    (k : s.SameOrigin t) : r.SameOrigin t :=
  ⟨k.id.trans h.id, k.extractionId.trans h.extractionId, k.field.trans h.field,
    k.confidence.trans h.confidence, k.modelValue.trans h.modelValue, k.createdAt.trans h.createdAt⟩

theorem FieldReview.Evolves.refl (r : FieldReview) : r.Evolves r :=
  ⟨⟨rfl, rfl, rfl, rfl, rfl, rfl⟩, .inl rfl, fun _ => rfl, fun _ h => h⟩

theorem FieldReview.Evolves.trans {r s t : FieldReview} (h : r.Evolves s) (k : s.Evolves t) :
    r.Evolves t := by
  refine ⟨h.origin.trans k.origin, ?_, ?_, fun time set => k.routedAt time (h.routedAt time set)⟩
  · obtain same | ⟨a, b⟩ | ⟨a, b⟩ | ⟨a, b⟩ := h.state
    · rw [← same]
      exact k.state
    · rcases k.state with later | later | later | later <;> simp_all
    · simp [k.frozen b, a, b]
    · simp [k.frozen b, a, b]
  · intro reviewed
    have same := h.frozen reviewed
    rw [k.frozen (same ▸ reviewed), same]

/-- A decision takes an open row to the reviewed ones. -/
theorem FieldReview.Evolves.decided {r s : FieldReview} (origin : r.SameOrigin s)
    (undecided : r.reviewState ≠ .reviewed) (decided : s.reviewState = .reviewed)
    (kept : s.routedAt = r.routedAt) : r.Evolves s := by
  refine ⟨origin, ?_, fun reviewed => absurd reviewed undecided, fun t h => kept.trans h⟩
  cases state : r.reviewState with
  | unreviewed => exact .inr (.inr (.inl ⟨rfl, decided⟩))
  | routed => exact .inr (.inr (.inr ⟨rfl, decided⟩))
  | reviewed => exact absurd state undecided

theorem ReviewCall.Does.evolves (h : call.Does r s) (valid : r.Valid) : r.Evolves s := by
  unfold ReviewCall.Does at h
  split at h
  · exact h.elim
  · obtain ⟨eligible, rfl⟩ := h
    obtain ⟨state, _⟩ := FieldReview.eligible_iff.mp eligible
    exact ⟨r.route_sameOrigin _, .inr (.inl ⟨state, rfl⟩), by simp [state],
      by simp [valid.unrouted state]⟩
  · obtain ⟨queued, rfl⟩ := h
    exact ⟨r.skip_sameOrigin _, .inl rfl, by simp [queued], fun _ set => set⟩
  · obtain ⟨undecided, _, rfl⟩ := h
    exact .decided (r.accept_sameOrigin ..) undecided rfl rfl
  · obtain ⟨undecided, _, _, _, rfl⟩ := h
    exact .decided (r.correct_sameOrigin ..) undecided rfl rfl

theorem ReviewCall.Inserts.fresh (h : call.Inserts r) : r.Fresh := by
  unfold ReviewCall.Inserts at h
  split at h
  · exact h
  · exact h.elim

variable {d d' : Database} {own : List Uuid}

/-- Every row of before is still there, a version further at most. -/
theorem Effect.evolves (effect : Effect call own d d') (valid : ValidReviews d.fieldReviews) :
    ∀ r ∈ d.fieldReviews, ∃ s ∈ d'.fieldReviews, r.Evolves s ∧ (s = r ∨ call.Does r s) := by
  obtain ⟨f, new, rfl, changed, _, _⟩ := effect.changed
  intro r hr
  refine ⟨f r, List.mem_append_left _ (List.mem_map_of_mem hr), ?_⟩
  obtain same | ⟨_, does⟩ := changed r hr
  · rw [same]
    exact ⟨.refl r, .inl rfl⟩
  · exact ⟨does.evolves (valid.valid r hr), .inr does⟩

/-- No call changes a reviewed row. -/
theorem ReviewCall.Does.open_ (h : call.Does r s) : r.reviewState ≠ .reviewed := by
  unfold ReviewCall.Does at h
  split at h
  · exact h.elim
  · rw [(FieldReview.eligible_iff.mp h.1).1]
    simp
  · rw [h.1]
    simp
  · exact h.1
  · exact h.1

/-- What holds of new rows and is kept by what a call does holds of the table. -/
theorem Effect.forall (effect : Effect call own d d') {P : FieldReview → Prop}
    (old : ∀ r ∈ d.fieldReviews, P r) (does : ∀ {r s}, call.Does r s → P r → P s)
    (fresh : ∀ {s : FieldReview}, s.Fresh → P s) : ∀ s ∈ d'.fieldReviews, P s := by
  obtain ⟨f, new, rfl, changed, inserts, _⟩ := effect.changed
  intro s hs
  obtain kept | inserted := List.mem_append.mp hs
  · obtain ⟨r, hr, rfl⟩ := List.mem_map.mp kept
    obtain same | ⟨_, done⟩ := changed r hr
    · rw [same]
      exact old r hr
    · exact does done (old r hr)
  · exact fresh (inserts s inserted).2.fresh

/-- A call keeps the table legal. -/
theorem Effect.legal (effect : Effect call own d d') (legal : LegalReviews d.fieldReviews) :
    LegalReviews d'.fieldReviews :=
  ⟨effect.table, effect.forall legal.checked (fun does checked => does.checked checked)
    fun fresh => fresh.valid.checked⟩

/-- A call keeps the table valid. -/
theorem Effect.valid (effect : Effect call own d d') (valid : ValidReviews d.fieldReviews) :
    ValidReviews d'.fieldReviews :=
  ⟨effect.table, effect.forall valid.valid (fun does held => does.valid held)
    fun fresh => fresh.valid⟩

/-- Rows that are not the call's own are there before exactly if they are after. -/
theorem Effect.frame (effect : Effect call own d d') {r : FieldReview} (other : r.id ∉ own) :
    r ∈ d'.fieldReviews ↔ r ∈ d.fieldReviews := by
  obtain ⟨f, new, rfl, changed, fresh, _⟩ := effect.changed
  constructor
  · intro hr
    obtain old | inserted := List.mem_append.mp hr
    · obtain ⟨s, hs, rfl⟩ := List.mem_map.mp old
      obtain same | ⟨mine, does⟩ := changed s hs
      · rw [same]
        exact hs
      · exact absurd (does.sameOrigin.id ▸ mine) other
    · exact absurd (fresh r inserted).1 other
  · intro hr
    obtain same | ⟨mine, _⟩ := changed r hr
    · exact List.mem_append_left _ (List.mem_map.mpr ⟨r, hr, same⟩)
    · exact absurd mine other

/-- No other table is touched. -/
theorem Effect.tables (effect : Effect call own d d') :
    d' = { d with fieldReviews := d'.fieldReviews } := by
  obtain ⟨_, _, rfl, _⟩ := effect.changed
  rfl

/-- A call executed alone: what it raised or the rows that are its own, and the tables. -/
def ReviewCall.run (call : ReviewCall) (context : Context) (d : Database) :
    Except Exc (List Uuid) × Database :=
  ((call.program.serial postgres context ⟨d, false⟩).1,
    (call.program.serial postgres context ⟨d, false⟩).2.db)

/-- The tables after a history of calls, oldest first. -/
def reviewHistory : List (Context × ReviewCall) → Database → Database
  | [], d => d
  | (context, call) :: rest, d => reviewHistory rest (call.run context d).2

/-- The row that a reviewer acts on. -/
def ReviewCall.row? : ReviewCall → Option Uuid
  | .decide _ _ id _ _ _ _ => some id
  | _ => none

/-- Whether a call is an accept or a correct on the row. -/
def ReviewCall.decidesOn (id : Uuid) : ReviewCall → Bool
  | .decide _ _ row action _ _ _ => row = id && action ≠ .skip
  | _ => false

/-- How many accepts and corrects on the row succeed in a history. -/
def decisionsOn (id : Uuid) : List (Context × ReviewCall) → Database → Nat
  | [], _ => 0
  | (context, call) :: rest, d =>
      (if call.decidesOn id && (call.run context d).1.toBool then 1 else 0) +
        decisionsOn id rest (call.run context d).2

theorem ReviewCall.run_cases (context : Context) (legal : LegalReviews d.fieldReviews) :
    (∃ e, call.run context d = (.error e, d)) ∨
      ∃ own, (call.run context d).1 = .ok own ∧ Effect call own d (call.run context d).2 := by
  have effect : Effective call d (call.program.serial postgres context ⟨d, false⟩).1
      (call.program.serial postgres context ⟨d, false⟩).2 := call.effect legal
  rw [ReviewCall.run]
  cases result : (call.program.serial postgres context ⟨d, false⟩).1 with
  | error e =>
      rw [result] at effect
      have same : _ = d := effect
      exact .inl ⟨e, by rw [same]⟩
  | ok own =>
      rw [result] at effect
      exact .inr ⟨own, rfl, effect⟩

/-- Whether a call inserts rows; passes and decisions do not. -/
def ReviewCall.creates : ReviewCall → Bool
  | .create .. => true
  | _ => false

/-- What passes and decisions leave are rows of before, a version further at most. -/
theorem ReviewCall.run_origin (context : Context) (legal : LegalReviews d.fieldReviews)
    (keeps : call.creates = false) :
    ∀ s ∈ (call.run context d).2.fieldReviews, ∃ r ∈ d.fieldReviews, s = r ∨ call.Does r s := by
  obtain ⟨e, raised⟩ | ⟨own, _, effect⟩ := call.run_cases context legal
  · rw [raised]
    exact fun s hs => ⟨s, hs, .inl rfl⟩
  obtain ⟨f, new, after, changed, inserted, _⟩ := effect.changed
  rw [after]
  intro s hs
  obtain old | fresh := List.mem_append.mp hs
  · obtain ⟨r, hr, rfl⟩ := List.mem_map.mp old
    exact ⟨r, hr, (changed r hr).imp_right And.right⟩
  · have inserts := (inserted s fresh).2
    cases call with
    | create => cases keeps
    | route => exact inserts.elim
    | decide => exact inserts.elim

theorem ReviewCall.run_legal (context : Context) (legal : LegalReviews d.fieldReviews) :
    LegalReviews (call.run context d).2.fieldReviews := by
  obtain ⟨e, raised⟩ | ⟨own, _, effect⟩ := call.run_cases context legal
  · rw [raised]
    exact legal
  · exact effect.legal legal

theorem ReviewCall.run_keeps_reviewed (context : Context) (legal : LegalReviews d.fieldReviews) :
    ∀ r ∈ d.fieldReviews, r.reviewState = .reviewed →
      r ∈ (call.run context d).2.fieldReviews := by
  obtain ⟨e, raised⟩ | ⟨own, _, effect⟩ := call.run_cases context legal
  · rw [raised]
    exact fun r hr _ => hr
  obtain ⟨f, new, after, changed, _, _⟩ := effect.changed
  rw [after]
  intro r hr reviewed
  obtain same | ⟨_, does⟩ := changed r hr
  · exact List.mem_append_left _ (List.mem_map.mpr ⟨r, hr, same⟩)
  · exact absurd reviewed does.open_

theorem ReviewCall.run_valid (context : Context) (valid : ValidReviews d.fieldReviews) :
    ValidReviews (call.run context d).2.fieldReviews := by
  obtain ⟨e, raised⟩ | ⟨own, _, effect⟩ := call.run_cases context valid.legal
  · rw [raised]
    exact valid
  · exact effect.valid valid

theorem ReviewCall.run_evolves (context : Context) (valid : ValidReviews d.fieldReviews) :
    ∀ r ∈ d.fieldReviews, ∃ s ∈ (call.run context d).2.fieldReviews,
      r.Evolves s ∧ (s = r ∨ call.Does r s) := by
  obtain ⟨e, raised⟩ | ⟨own, _, effect⟩ := call.run_cases context valid.legal
  · rw [raised]
    exact fun r hr => ⟨r, hr, .refl r, .inl rfl⟩
  · exact effect.evolves valid

theorem reviewHistory_valid (history : List (Context × ReviewCall))
    (valid : ValidReviews d.fieldReviews) :
    ValidReviews (reviewHistory history d).fieldReviews := by
  induction history generalizing d with
  | nil => exact valid
  | cons entry rest ih => exact ih (entry.2.run_valid entry.1 valid)

theorem reviewHistory_evolves (history : List (Context × ReviewCall))
    (valid : ValidReviews d.fieldReviews) :
    ∀ r ∈ d.fieldReviews, ∃ s ∈ (reviewHistory history d).fieldReviews, r.Evolves s := by
  induction history generalizing d with
  | nil => exact fun r hr => ⟨r, hr, .refl r⟩
  | cons entry rest ih =>
      intro r hr
      obtain ⟨middle, hmiddle, first, _⟩ := entry.2.run_evolves entry.1 valid r hr
      obtain ⟨last, hlast, later⟩ := ih (entry.2.run_valid entry.1 valid) middle hmiddle
      exact ⟨last, hlast, first.trans later⟩

theorem ReviewCall.row?_of_decidesOn {id : Uuid} (decides : call.decidesOn id = true) :
    call.row? = some id := by
  cases call with
  | create => cases decides
  | route => cases decides
  | decide rt now row action reviewer correctedValue note =>
      obtain ⟨rfl, _⟩ : row = id ∧ action ≠ .skip := by simpa [ReviewCall.decidesOn] using decides
      rfl

/-- The row of a successful action is its own. -/
theorem ReviewCall.own_of_row? {context : Context} {id : Uuid} (acts : call.row? = some id)
    (result : (call.run context d).1 = .ok own) : own = [id] := by
  cases call with
  | create => cases acts
  | route => cases acts
  | decide rt now row action reviewer correctedValue note =>
      obtain rfl := Option.some.inj acts
      rw [ReviewCall.run, ReviewCall.program, Prog.bind_eq, Prog.serial_bind] at result
      split at result
      · exact (Except.ok.inj result).symm
      · cases result

theorem ReviewCall.Does.decided {id : Uuid} (h : call.Does r s)
    (decides : call.decidesOn id = true) :
    r.reviewState ≠ .reviewed ∧ s.reviewState = .reviewed := by
  unfold ReviewCall.Does at h
  split at h
  · exact h.elim
  · cases decides
  · simp [ReviewCall.decidesOn] at decides
  · obtain ⟨undecided, _, rfl⟩ := h
    exact ⟨undecided, rfl⟩
  · obtain ⟨undecided, _, _, _, rfl⟩ := h
    exact ⟨undecided, rfl⟩

/-- A decision that succeeds finds its row undecided and leaves it reviewed. -/
theorem ReviewCall.run_decides {context : Context} {id : Uuid}
    (legal : LegalReviews d.fieldReviews) (decides : call.decidesOn id = true)
    (succeeds : (call.run context d).1.toBool = true) :
    (∀ r ∈ d.fieldReviews, r.id = id → r.reviewState ≠ .reviewed) ∧
      ∃ s ∈ (call.run context d).2.fieldReviews, s.id = id ∧ s.reviewState = .reviewed := by
  obtain ⟨e, raised⟩ | ⟨own, result, effect⟩ := call.run_cases context legal
  · rw [raised] at succeeds
    cases succeeds
  obtain rfl := call.own_of_row? (call.row?_of_decidesOn decides) result
  obtain ⟨f, new, after, _, fresh, all⟩ := effect.changed
  obtain ⟨r, hr, rfl, does⟩ | ⟨r, hr, _⟩ := all id (by simp)
  · obtain ⟨undecided, reviewed⟩ := does.decided decides
    refine ⟨fun s hs same => legal.table.ids.eq_of_key hs hr same ▸ undecided, f r, ?_,
      does.sameOrigin.id, reviewed⟩
    rw [after]
    exact List.mem_append_left _ (List.mem_map_of_mem hr)
  · have inserts := (fresh r hr).2
    cases call with
    | create => cases decides
    | route => exact inserts.elim
    | decide => exact inserts.elim

theorem decisionsOn_le (id : Uuid) (history : List (Context × ReviewCall))
    (valid : ValidReviews d.fieldReviews) :
    decisionsOn id history d ≤ 1 ∧
      ((∃ r ∈ d.fieldReviews, r.id = id ∧ r.reviewState = .reviewed) →
        decisionsOn id history d = 0) := by
  induction history generalizing d with
  | nil => simp [decisionsOn]
  | cons entry rest ih =>
      obtain ⟨context, call⟩ := entry
      obtain ⟨once, never⟩ := ih (call.run_valid context valid)
      rw [decisionsOn]
      by_cases decided : (call.decidesOn id && (call.run context d).1.toBool) = true
      · rw [Bool.and_eq_true] at decided
        obtain ⟨before, after⟩ := call.run_decides valid.legal decided.1 decided.2
        rw [if_pos (by rw [decided.1, decided.2]; rfl), never after]
        refine ⟨le_rfl, ?_⟩
        rintro ⟨r, hr, same, reviewed⟩
        exact absurd reviewed (before r hr same)
      · rw [if_neg decided, Nat.zero_add]
        refine ⟨once, ?_⟩
        rintro ⟨r, hr, same, reviewed⟩
        obtain ⟨s, hs, evolves, _⟩ := call.run_evolves context valid r hr
        rw [evolves.frozen reviewed] at hs
        exact never ⟨r, hs, same, reviewed⟩

/-- Every history of calls that starts without review rows leaves valid rows, which meet
the constraints of the table; later calls only move a row forward; a call that raises
changes nothing, any other only rows of its own and only as `Does` says; and at most one
accept or correct of a row succeeds. -/
theorem review_rows_lifecycle (start : Database) (history later : List (Context × ReviewCall))
    (context : Context) (call : ReviewCall) :
    let d := reviewHistory history { start with fieldReviews := [] }
    let d' := (call.run context d).2
    (∀ r ∈ d.fieldReviews, r.Valid ∧
      ∀ check ∈ r.checks (otherRows FieldReview.id r.id d.fieldReviews), check.2 = true) ∧
    (∀ r ∈ d.fieldReviews, ∃ s ∈ (reviewHistory later d).fieldReviews, r.Evolves s) ∧
    (∀ r ∈ d.fieldReviews, ∃ s ∈ d'.fieldReviews, r.Evolves s ∧ (s = r ∨ call.Does r s)) ∧
    (∀ e, (call.run context d).1 = .error e → d' = d) ∧
    (∀ own, (call.run context d).1 = .ok own →
      d' = { d with fieldReviews := d'.fieldReviews } ∧
      (∀ id, call.row? = some id → own = [id]) ∧
      ∀ r, r.id ∉ own → (r ∈ d'.fieldReviews ↔ r ∈ d.fieldReviews)) ∧
    ∀ id, decisionsOn id history { start with fieldReviews := [] } ≤ 1 := by
  intro d d'
  have none_yet : ValidReviews ({ start with fieldReviews := [] } : Database).fieldReviews :=
    ⟨reviewTable_nil, by simp⟩
  have valid : ValidReviews d.fieldReviews := reviewHistory_valid history none_yet
  refine ⟨?_, reviewHistory_evolves later valid, call.run_evolves context valid, ?_, ?_,
    fun id => (decisionsOn_le id history none_yet).1⟩
  · intro r hr
    refine ⟨valid.valid r hr, FieldReview.checks_ok.mpr ⟨?_, ?_, (valid.valid r hr).checked⟩⟩
    · exact fun s hs => (mem_otherRows.mp hs).2
    · intro s hs same
      obtain ⟨hs, other⟩ := mem_otherRows.mp hs
      exact other (congrArg FieldReview.id (valid.table.slots.eq_of_key hs hr same))
  · intro e raised
    obtain ⟨_, h⟩ | ⟨own, h, _⟩ := call.run_cases context valid.legal
    · exact congrArg Prod.snd h
    · rw [h] at raised
      cases raised
  · intro own result
    obtain ⟨e, h⟩ | ⟨own', h, effect⟩ := call.run_cases context valid.legal
    · rw [h] at result
      cases result
    · obtain rfl := Except.ok.inj (h.symm.trans result)
      exact ⟨effect.tables, fun id acts => call.own_of_row? acts h,
        fun r other => effect.frame other⟩

end IncidentPipeline
