import IncidentPipeline.Review.Ranking

/-!
# A routing pass among decisions

Under READ COMMITTED every statement of the pass sees what is committed when it starts.
The `UPDATE` computes the set of identifiers from its snapshot, without locks, and then
goes from row to row. It waits for a row that a decision has locked, takes the latest
version of it, and checks only again that its identifier is in the set. So a row that
was decided after the snapshot is written as well, and the constraints of the table
reject the new version.

A decision locks its row first, and nobody else writes it before the decision commits,
so the whole of `record_decision` is one step of the schedule.
-/

namespace IncidentPipeline

open Tables Transactions

/-! ### The schedule -/

/-- How far the pass is. `done` are the rows it has written and thereby locked. A negative
budget is refused before anything is sent; a violated constraint aborts the transaction. -/
inductive Pass where
  | started
  | refused
  | counted (eligible : Nat)
  | limited (eligible outstanding : Nat)
  | updating (pending done : List Uuid)
  | completed (done : List Uuid)
  | aborted
  | committed

/-- The rows of the snapshot that the `UPDATE` has yet to reach. -/
def Pass.pending : Pass → List Uuid
  | .updating pending _ => pending
  | _ => []

def Pass.locked : Pass → List Uuid
  | .updating _ done => done
  | .completed done => done
  | _ => []

/-- Whether the pass has ended, one way or the other. -/
def Pass.ended : Pass → Bool
  | .refused | .aborted | .committed => true
  | _ => false

/-- The committed tables, the pass, and the rows that open decisions have locked. -/
structure Race where
  tables : Database
  pass : Pass
  deciding : List Uuid

inductive RaceLabel where
  | pass
  | locked (id : Uuid)
  | released (id : Uuid)
  | decided (call : ReviewCall) (succeeded : Bool) (pending : List Uuid)

/-- A decision that takes effect on a row between the snapshot and the write. -/
def RaceLabel.Disturbs : RaceLabel → Prop
  | .decided call true pending => ∃ id ∈ pending, call.decidesOn id = true
  | _ => False

section Schedule

variable (collation : Collation) (now : Time) (floor : ℚ) (budget : Option Int)

inductive Race.Step : Race → RaceLabel → Race → Prop where
  | refuse {d : Database} {deciding : List Uuid} (negative : budget.any (· < 0) = true) :
      Race.Step ⟨d, .started, deciding⟩ .pass ⟨d, .refused, deciding⟩
  | count {d : Database} {deciding : List Uuid} (sane : ¬ budget.any (· < 0) = true) :
      Race.Step ⟨d, .started, deciding⟩ .pass
        ⟨d, .counted (d.fieldReviews.countP (FieldReview.eligible floor)), deciding⟩
  | outstanding {d : Database} {deciding : List Uuid} {eligible : Nat} :
      Race.Step ⟨d, .counted eligible, deciding⟩ .pass
        ⟨d, .limited eligible (outstandingRows d.fieldReviews), deciding⟩
  | full {d : Database} {deciding : List Uuid} {eligible outstanding : Nat}
      (none_left : routingLimit budget outstanding = some 0) :
      Race.Step ⟨d, .limited eligible outstanding, deciding⟩ .pass ⟨d, .completed [], deciding⟩
  /-- The sub-select is answered; the plan visits its rows in any order. -/
  | snapshot {d : Database} {deciding : List Uuid} {eligible outstanding : Nat}
      {pending : List Uuid} (room : routingLimit budget outstanding ≠ some 0)
      (plan : pending.Perm
        (chosenIds collation floor (routingLimit budget outstanding) d.fieldReviews)) :
      Race.Step ⟨d, .limited eligible outstanding, deciding⟩ .pass
        ⟨d, .updating pending [], deciding⟩
  /-- The latest version of a row is written, if nobody has it locked. -/
  | write {d : Database} {deciding : List Uuid} {id : Uuid} {pending done : List Uuid}
      {row : FieldReview} (free : id ∉ deciding)
      (latest : d.fieldReviews.find? (·.id = id) = some row)
      (checked : ∀ check ∈ (row.route now).rowChecks, check.2 = true) :
      Race.Step ⟨d, .updating (id :: pending) done, deciding⟩ .pass
        ⟨d, .updating pending (done ++ [id]), deciding⟩
  | violate {d : Database} {deciding : List Uuid} {id : Uuid} {pending done : List Uuid}
      {row : FieldReview} (free : id ∉ deciding)
      (latest : d.fieldReviews.find? (·.id = id) = some row)
      (violated : ¬ ∀ check ∈ (row.route now).rowChecks, check.2 = true) :
      Race.Step ⟨d, .updating (id :: pending) done, deciding⟩ .pass ⟨d, .aborted, deciding⟩
  | finish {d : Database} {deciding : List Uuid} {done : List Uuid} :
      Race.Step ⟨d, .updating [] done, deciding⟩ .pass ⟨d, .completed done, deciding⟩
  | commit {d : Database} {deciding : List Uuid} {done : List Uuid} :
      Race.Step ⟨d, .completed done, deciding⟩ .pass
        ⟨{ d with fieldReviews := d.fieldReviews.map (routeRow now done) }, .committed, deciding⟩
  /-- `SELECT ... FOR UPDATE`, which waits while the row is locked. -/
  | lock {d : Database} {pass : Pass} {deciding : List Uuid} {id : Uuid} (free : id ∉ deciding)
      (unwritten : id ∉ pass.locked) :
      Race.Step ⟨d, pass, deciding⟩ (.locked id) ⟨d, pass, id :: deciding⟩
  /-- The decision that holds the lock ends: it commits, or it raises and rolls back. -/
  | decide {d : Database} {pass : Pass} {deciding : List Uuid} {id : Uuid} {call : ReviewCall}
      (context : Context) (holds : id ∈ deciding) (acts : call.row? = some id) :
      Race.Step ⟨d, pass, deciding⟩
        (.decided call (call.run context d).1.toBool pass.pending)
        ⟨(call.run context d).2, pass, deciding.erase id⟩
  /-- The connection of a decision is lost. -/
  | abandon {d : Database} {pass : Pass} {deciding : List Uuid} {id : Uuid} :
      Race.Step ⟨d, pass, deciding⟩ (.released id) ⟨d, pass, deciding.erase id⟩

/-- A finite schedule, oldest step first. -/
inductive Race.Run (w : Race) : List RaceLabel → Race → Prop where
  | refl : Race.Run w [] w
  | snoc {labels : List RaceLabel} {label : RaceLabel} {u v : Race} (before : Race.Run w labels u)
      (step : Race.Step collation now floor budget u label v) :
      Race.Run w (labels ++ [label]) v

end Schedule

/-! ### Rows under the pass -/

variable {collation : Collation} {now : Time} {floor : ℚ} {budget : Option Int}

/-- Routing meets the constraints on a row unless it is reviewed. -/
theorem FieldReview.route_checked_iff {r : FieldReview} (checked : r.Checked) :
    (r.route now).Checked ↔ r.reviewState ≠ .reviewed := by
  constructor
  · intro routed reviewed
    have decided := ((FieldReview.checked_iff.mp checked).1.mp reviewed).1
    have undecided := routed.undecided (by simp [FieldReview.route])
    have none_left : r.decision = none := undecided.1
    rw [none_left] at decided
    cases decided
  · intro open_
    obtain ⟨decision, reviewer, reviewedAt⟩ := checked.undecided open_
    simp [FieldReview.checked_iff, FieldReview.route, decision, reviewer, reviewedAt,
      checked.no_value decision]

/-- A call leaves the rows that are not its own alone. -/
theorem ReviewCall.run_frame {call : ReviewCall} {id : Uuid} {d : Database} (context : Context)
    (legal : LegalReviews d.fieldReviews) (acts : call.row? = some id) {r : FieldReview}
    (other : r.id ≠ id) :
    r ∈ (call.run context d).2.fieldReviews ↔ r ∈ d.fieldReviews := by
  obtain ⟨e, raised⟩ | ⟨own, result, effect⟩ := call.run_cases context legal
  · rw [raised]
  · obtain rfl := call.own_of_row? acts result
    exact effect.frame (by simpa using other)

theorem ReviewCall.creates_of_row? {call : ReviewCall} {id : Uuid} (acts : call.row? = some id) :
    call.creates = false := by
  cases call with
  | create => cases acts
  | route => rfl
  | decide => rfl

/-- A row is reviewed after a decision if it was before, or if it was decided. -/
theorem ReviewCall.run_reviewed {call : ReviewCall} {id : Uuid} {d : Database} (context : Context)
    (legal : LegalReviews d.fieldReviews) (acts : call.row? = some id) {s : FieldReview}
    (member : s ∈ (call.run context d).2.fieldReviews) (reviewed : s.reviewState = .reviewed) :
    s ∈ d.fieldReviews ∨
      (s.id = id ∧ call.decidesOn id = true ∧ (call.run context d).1.toBool = true) := by
  obtain ⟨e, raised⟩ | ⟨own, result, effect⟩ := call.run_cases context legal
  · rw [raised] at member
    exact .inl member
  by_cases mine : s.id = id
  · obtain ⟨r, hr, same | does⟩ :=
      call.run_origin context legal (call.creates_of_row? acts) s member
    · exact .inl (same ▸ hr)
    refine .inr ⟨mine, ?_, by rw [result]; rfl⟩
    cases call with
    | create => cases acts
    | route => cases acts
    | decide rt at_ row action reviewer value note =>
        obtain rfl := Option.some.inj acts
        cases action with
        | skip =>
            obtain ⟨queued, rfl⟩ := does
            rw [show (r.skip at_).reviewState = r.reviewState from rfl, queued] at reviewed
            cases reviewed
        | accept => simp [ReviewCall.decidesOn]
        | correct => simp [ReviewCall.decidesOn]
  · exact .inl ((call.run_frame context legal acts mine).mp member)

/-- A decision routes nothing. -/
theorem ReviewCall.run_routed {call : ReviewCall} {id : Uuid} {d : Database} (context : Context)
    (legal : LegalReviews d.fieldReviews) (acts : call.row? = some id) {s : FieldReview}
    (member : s ∈ (call.run context d).2.fieldReviews) (routed : s.reviewState = .routed) :
    ∃ r ∈ d.fieldReviews, r.id = s.id ∧ r.reviewState = .routed := by
  obtain ⟨r, hr, same | does⟩ := call.run_origin context legal (call.creates_of_row? acts) s member
  · exact ⟨r, hr, by rw [same], same ▸ routed⟩
  refine ⟨r, hr, does.sameOrigin.id.symm, ?_⟩
  cases call with
  | create => cases acts
  | route => cases acts
  | decide rt at_ row action reviewer value note =>
      cases action with
      | skip => exact does.1
      | accept =>
          obtain ⟨_, _, rfl⟩ := does
          cases routed
      | correct =>
          obtain ⟨_, _, _, _, rfl⟩ := does
          cases routed

/-! ### The invariant -/

/-- What holds of the table while the pass is where it is. `disturbed` tells whether a
decision has taken effect on a row between the snapshot and the write. -/
def Pass.Holds (rows : List FieldReview) (disturbed : Prop) : Pass → Prop
  | .updating pending done =>
      (∀ r ∈ rows, r.id ∈ done → r.reviewState = .unreviewed) ∧
      (∀ r ∈ rows, r.id ∈ pending → r.reviewState ≠ .routed) ∧
      (disturbed ↔ ∃ r ∈ rows, r.id ∈ pending ∧ r.reviewState = .reviewed)
  | .completed done => ¬ disturbed ∧ ∀ r ∈ rows, r.id ∈ done → r.reviewState = .unreviewed
  | .aborted => disturbed
  | _ => ¬ disturbed

structure Race.Invariant (w : Race) (disturbed : Prop) : Prop where
  legal : LegalReviews w.tables.fieldReviews
  locks : ∀ id ∈ w.deciding, id ∉ w.pass.locked
  holds : w.pass.Holds w.tables.fieldReviews disturbed

variable {u v : Race} {label : RaceLabel} {disturbed : Prop}

/-- A step of the pass that writes no row. -/
theorem Race.Invariant.advance {d : Database} {pass pass' : Pass} {deciding : List Uuid}
    (inv : (Race.mk d pass deciding).Invariant disturbed)
    (locks : ∀ id ∈ deciding, id ∉ pass'.locked)
    (holds : pass.Holds d.fieldReviews disturbed → pass'.Holds d.fieldReviews disturbed) :
    (Race.mk d pass' deciding).Invariant disturbed :=
  ⟨inv.legal, locks, holds inv.holds⟩

theorem not_disturbs_nil {call : ReviewCall} {succeeded : Bool} :
    ¬ (RaceLabel.decided call succeeded []).Disturbs := by
  cases succeeded <;> simp [RaceLabel.Disturbs]

/-- The end of a decision keeps the invariant. -/
theorem Race.Invariant.decide {d : Database} {pass : Pass} {deciding : List Uuid} {id : Uuid}
    {call : ReviewCall} (inv : (Race.mk d pass deciding).Invariant disturbed) (context : Context)
    (held : id ∈ deciding) (acts : call.row? = some id) :
    (Race.mk (call.run context d).2 pass (deciding.erase id)).Invariant
      (disturbed ∨
        (RaceLabel.decided call (call.run context d).1.toBool pass.pending).Disturbs) := by
  obtain ⟨legal, locks, holds⟩ := inv
  -- the rows that the pass has written are locked
  have written : ∀ {done : List Uuid}, id ∉ done →
      (∀ r ∈ d.fieldReviews, r.id ∈ done → r.reviewState = .unreviewed) →
      ∀ s ∈ (call.run context d).2.fieldReviews, s.id ∈ done → s.reviewState = .unreviewed := by
    intro done apart before s hs member
    have other : s.id ≠ id := fun same => apart (same ▸ member)
    exact before s ((call.run_frame context legal acts other).mp hs) member
  refine ⟨call.run_legal context legal, fun i hi => locks i (List.mem_of_mem_erase hi), ?_⟩
  cases pass with
  | updating pending done =>
      obtain ⟨before, unrouted, iff⟩ := holds
      refine ⟨written (locks id held) before, ?_, ?_⟩
      · intro s hs member routed
        obtain ⟨r, hr, same, routed⟩ := call.run_routed context legal acts hs routed
        exact unrouted r hr (same ▸ member) routed
      · constructor
        · rintro (early | now_)
          · obtain ⟨r, hr, member, reviewed⟩ := iff.mp early
            exact ⟨r, call.run_keeps_reviewed context legal r hr reviewed, member, reviewed⟩
          · cases ok : (call.run context d).1.toBool with
            | false =>
                rw [ok] at now_
                exact now_.elim
            | true =>
                rw [ok] at now_
                obtain ⟨i, member, decides⟩ := now_
                obtain ⟨s, hs, rfl, reviewed⟩ := (call.run_decides legal decides ok).2
                exact ⟨s, hs, member, reviewed⟩
        · rintro ⟨s, hs, member, reviewed⟩
          obtain old | ⟨mine, decides, ok⟩ := call.run_reviewed context legal acts hs reviewed
          · exact .inl (iff.mpr ⟨s, old, member, reviewed⟩)
          · rw [ok]
            exact .inr ⟨id, mine ▸ member, decides⟩
  | completed done =>
      exact ⟨not_or_intro holds.1 not_disturbs_nil, written (locks id held) holds.2⟩
  | aborted => exact .inl holds
  | started => exact not_or_intro holds not_disturbs_nil
  | refused => exact not_or_intro holds not_disturbs_nil
  | counted eligible => exact not_or_intro holds not_disturbs_nil
  | limited eligible outstanding => exact not_or_intro holds not_disturbs_nil
  | committed => exact not_or_intro holds not_disturbs_nil

/-- The row that the pass goes to has not been decided, if it can be written. -/
theorem Race.Invariant.write {d : Database} {deciding pending done : List Uuid} {target : Uuid}
    {row : FieldReview}
    (inv : (Race.mk d (.updating (target :: pending) done) deciding).Invariant disturbed)
    (free : target ∉ deciding) (latest : d.fieldReviews.find? (·.id = target) = some row)
    (checked : (row.route now).Checked) :
    (Race.mk d (.updating pending (done ++ [target])) deciding).Invariant disturbed := by
  obtain ⟨before, unrouted, iff⟩ := inv.holds
  have member := List.mem_of_find?_eq_some latest
  have key : row.id = target := by simpa using List.find?_some latest
  have only : ∀ r ∈ d.fieldReviews, r.id = target → r = row := fun r hr same =>
    inv.legal.table.ids.eq_of_key hr member (same.trans key.symm)
  have open_ := (FieldReview.route_checked_iff (inv.legal.checked row member)).mp checked
  have state : row.reviewState = .unreviewed := by
    have queued := unrouted row member (by simp [key])
    cases h : row.reviewState with
    | unreviewed => rfl
    | routed => exact absurd h queued
    | reviewed => exact absurd h open_
  refine ⟨inv.legal, ?_, ?_, fun r hr later => unrouted r hr (by simp [later]), ?_⟩
  · intro i hi locked
    obtain earlier | now_ := List.mem_append.mp locked
    · exact inv.locks i hi earlier
    · exact free (List.mem_singleton.mp now_ ▸ hi)
  · intro r hr locked
    obtain earlier | now_ := List.mem_append.mp locked
    · exact before r hr earlier
    · rw [only r hr (List.mem_singleton.mp now_), state]
  · rw [iff]
    constructor
    · rintro ⟨r, hr, waiting, reviewed⟩
      obtain same | later := List.mem_cons.mp waiting
      · exact absurd (only r hr same ▸ reviewed) open_
      · exact ⟨r, hr, later, reviewed⟩
    · rintro ⟨r, hr, later, reviewed⟩
      exact ⟨r, hr, List.mem_cons_of_mem _ later, reviewed⟩

/-- The pass commits the rows that it has written. -/
theorem Race.Invariant.commit {d : Database} {deciding done : List Uuid}
    (inv : (Race.mk d (.completed done) deciding).Invariant disturbed) :
    (Race.mk { d with fieldReviews := d.fieldReviews.map (routeRow now done) } .committed
      deciding).Invariant disturbed := by
  obtain ⟨calm, before⟩ := inv.holds
  refine ⟨⟨?_, ?_⟩, by simp [Pass.locked], calm⟩
  · refine inv.legal.table.map fun r _ => ?_
    rw [routeRow]
    split
    · exact (r.route_sameOrigin now).sameKeys
    · exact ⟨rfl, rfl⟩
  · intro s hs
    obtain ⟨r, hr, rfl⟩ := List.mem_map.mp hs
    rw [routeRow]
    split
    · next locked =>
        refine (FieldReview.route_checked_iff (inv.legal.checked r hr)).mpr ?_
        rw [before r hr locked]
        simp
    · exact inv.legal.checked r hr

/-- One step keeps the invariant. -/
theorem Race.Step.invariant (step : Race.Step collation now floor budget u label v)
    (inv : u.Invariant disturbed) : v.Invariant (disturbed ∨ label.Disturbs) := by
  have undisturbed : ∀ {l : RaceLabel}, ¬ l.Disturbs → (disturbed ∨ l.Disturbs) = disturbed :=
    fun h => by simp [h]
  cases step with
  | refuse =>
      rw [undisturbed id]
      exact inv.advance (by simp [Pass.locked]) fun h => h
  | count =>
      rw [undisturbed id]
      exact inv.advance (by simp [Pass.locked]) fun h => h
  | outstanding =>
      rw [undisturbed id]
      exact inv.advance (by simp [Pass.locked]) fun h => h
  | full none_left =>
      rw [undisturbed id]
      exact inv.advance (by simp [Pass.locked]) fun h => ⟨h, by simp⟩
  | @snapshot d deciding eligible outstanding pending room plan =>
      rw [undisturbed id]
      refine inv.advance (by simp [Pass.locked]) fun h => ?_
      have open_ : ∀ r ∈ d.fieldReviews, r.id ∈ pending → r.reviewState = .unreviewed :=
        fun r hr chosen => (FieldReview.eligible_iff.mp
          (eligible_of_chosen inv.legal.table.ids hr (plan.mem_iff.mp chosen))).1
      refine ⟨by simp, fun r hr chosen => by simp [open_ r hr chosen], iff_of_false h ?_⟩
      rintro ⟨r, hr, chosen, reviewed⟩
      rw [open_ r hr chosen] at reviewed
      cases reviewed
  | write free latest checked =>
      rw [undisturbed id]
      exact inv.write free latest checked
  | @violate d deciding target pending done row free latest violated =>
      rw [undisturbed id]
      have member := List.mem_of_find?_eq_some latest
      have key : row.id = target := by simpa using List.find?_some latest
      have reviewed : row.reviewState = .reviewed := by
        by_contra open_
        exact violated
          ((FieldReview.route_checked_iff (inv.legal.checked row member)).mpr open_)
      refine inv.advance (by simp [Pass.locked]) fun h => ?_
      exact h.2.2.mpr ⟨row, member, by simp [key], reviewed⟩
  | finish =>
      rw [undisturbed id]
      refine inv.advance inv.locks fun h => ⟨fun early => ?_, h.1⟩
      obtain ⟨_, _, waiting, _⟩ := h.2.2.mp early
      cases waiting
  | commit =>
      rw [undisturbed id]
      exact inv.commit
  | lock free unwritten =>
      rw [undisturbed id]
      refine ⟨inv.legal, fun i hi => ?_, inv.holds⟩
      obtain rfl | earlier := List.mem_cons.mp hi
      · exact unwritten
      · exact inv.locks i earlier
  | decide context held acts => exact inv.decide context held acts
  | abandon =>
      rw [undisturbed id]
      exact ⟨inv.legal, fun i hi => inv.locks i (List.mem_of_mem_erase hi), inv.holds⟩

/-- No step changes a reviewed row. -/
theorem Race.Step.keeps_reviewed (step : Race.Step collation now floor budget u label v)
    (inv : u.Invariant disturbed) :
    ∀ r ∈ u.tables.fieldReviews, r.reviewState = .reviewed → r ∈ v.tables.fieldReviews := by
  cases step with
  | @commit d deciding done =>
      intro r hr reviewed
      refine List.mem_map.mpr ⟨r, hr, if_neg fun locked => ?_⟩
      have open_ := inv.holds.2 r hr locked
      rw [reviewed] at open_
      cases open_
  | decide context held acts =>
      exact ReviewCall.run_keeps_reviewed context inv.legal
  | _ => exact fun r hr _ => hr

variable {labels : List RaceLabel}

theorem Race.Run.invariant (run : Race.Run collation now floor budget u labels v)
    (inv : u.Invariant disturbed) :
    v.Invariant (disturbed ∨ ∃ label ∈ labels, label.Disturbs) := by
  induction run with
  | refl => simpa using inv
  | snoc before step ih =>
      have later := step.invariant ih
      have all : ∀ {a b c : Prop}, ((a ∨ b) ∨ c) = (a ∨ b ∨ c) := by simp [or_assoc]
      simpa [or_and_right, exists_or, all] using later

theorem Race.Run.keeps_reviewed (run : Race.Run collation now floor budget u labels v)
    (inv : u.Invariant disturbed) :
    ∀ r ∈ u.tables.fieldReviews, r.reviewState = .reviewed → r ∈ v.tables.fieldReviews := by
  induction run with
  | refl => exact fun r hr _ => hr
  | snoc before step ih =>
      exact fun r hr reviewed =>
        step.keeps_reviewed (before.invariant inv) r (ih r hr reviewed) reviewed

/-- In every schedule a decided row stays as it is, and a pass that has ended has
violated no constraint exactly if no decision took effect on a row between the snapshot
of the `UPDATE` and the write of the row. -/
theorem routing_pass_completes_iff {start : Database} (legal : LegalReviews start.fieldReviews)
    (run : Race.Run collation now floor budget ⟨start, .started, []⟩ labels v)
    (ended : v.pass.ended = true) :
    (∀ first second u, Race.Run collation now floor budget ⟨start, .started, []⟩ first u →
      Race.Run collation now floor budget u second v →
        ∀ r ∈ u.tables.fieldReviews, r.reviewState = .reviewed → r ∈ v.tables.fieldReviews) ∧
      v.pass ≠ .aborted ↔
    ∀ label ∈ labels, ¬ label.Disturbs := by
  have start_inv : (Race.mk start .started []).Invariant False := ⟨legal, by simp, fun h => h⟩
  have inv := run.invariant start_inv
  rw [false_or] at inv
  have kept : ∀ first second u, Race.Run collation now floor budget ⟨start, .started, []⟩ first u →
      Race.Run collation now floor budget u second v →
        ∀ r ∈ u.tables.fieldReviews, r.reviewState = .reviewed → r ∈ v.tables.fieldReviews :=
    fun first second u before after => after.keeps_reviewed (before.invariant start_inv)
  have calm : (∀ label ∈ labels, ¬ label.Disturbs) ↔ ¬ ∃ label ∈ labels, label.Disturbs := by simp
  rw [calm]
  obtain ⟨tables, pass, deciding⟩ := v
  cases pass with
  | aborted => exact iff_of_false (fun h => h.2 rfl) (fun h => h inv.holds)
  | refused => exact iff_of_true ⟨kept, by simp⟩ inv.holds
  | committed => exact iff_of_true ⟨kept, by simp⟩ inv.holds
  | _ => cases ended

/-! ### The pass alone -/

/-- What the pass has done of `routePending` while nobody decided anything. -/
def Race.Alone (collation : Collation) (now : Time) (floor : ℚ) (budget : Option Int)
    (d : Database) (w : Race) : Prop :=
  let chosen := chosenIds collation floor (routingLimit budget (outstandingRows d.fieldReviews))
    d.fieldReviews
  match w.pass with
  | .limited _ outstanding => w.tables = d ∧ outstanding = outstandingRows d.fieldReviews
  | .updating pending done => w.tables = d ∧ (done ++ pending).Perm chosen
  | .completed done => w.tables = d ∧ done.Perm chosen
  | .committed => w.tables = { d with fieldReviews := d.fieldReviews.map (routeRow now chosen) }
  | _ => w.tables = d

theorem routeRow_congr {first second : List Uuid} (same : ∀ id, id ∈ first ↔ id ∈ second)
    (now : Time) : routeRow now first = routeRow now second := by
  funext r
  simp only [routeRow, same]

theorem Race.Step.alone {d : Database} (step : Race.Step collation now floor budget u .pass v)
    (before : u.Alone collation now floor budget d) : v.Alone collation now floor budget d := by
  cases step with
  | @outstanding d' =>
      obtain rfl : d' = d := before
      exact ⟨rfl, rfl⟩
  | @full d' _ _ outstanding none_left =>
      obtain ⟨rfl, rfl⟩ : d' = d ∧ outstanding = outstandingRows d.fieldReviews := before
      refine ⟨rfl, ?_⟩
      rw [none_left]
      exact .of_eq rfl
  | @snapshot d' _ _ outstanding _ room plan =>
      obtain ⟨rfl, rfl⟩ : d' = d ∧ outstanding = outstandingRows d.fieldReviews := before
      exact ⟨rfl, plan⟩
  | write free latest checked => exact ⟨before.1, by simpa using before.2⟩
  | finish => exact ⟨before.1, by simpa using before.2⟩
  | @commit d' _ done =>
      obtain ⟨same, plan⟩ := before
      obtain rfl : d' = d := same
      show { d' with fieldReviews := d'.fieldReviews.map (routeRow now done) } = _
      rw [routeRow_congr (fun _ => plan.mem_iff)]
  | refuse => exact before
  | count => exact before
  | violate => exact before.1

/-- Without decisions in between, a pass that commits has done what `routePending` does. -/
theorem Race.Run.alone {d : Database} (context : Context)
    (sane : ∀ b, budget = some b → 0 ≤ b) (legal : LegalReviews d.fieldReviews)
    (run : Race.Run collation now floor budget ⟨d, .started, []⟩ labels v)
    (only : ∀ label ∈ labels, label = .pass) (committed : v.pass = .committed) :
    v.tables = (IncidentPipeline.pass collation context now floor budget d).2 := by
  have reached : v.Alone collation now floor budget d := by
    clear committed
    induction run with
    | refl => exact rfl
    | snoc before step ih =>
        obtain rfl := only _ (List.mem_append_right _ (List.mem_singleton_self _))
        exact step.alone (ih fun label member => only label (List.mem_append_left _ member))
  obtain ⟨tables, pass_, deciding⟩ := v
  obtain rfl : pass_ = .committed := committed
  obtain ⟨result, serial⟩ := @pass_eq collation d context now floor budget sane legal
  rw [serial]
  refine reached.trans ?_
  rw [chosenIds, takeLimit_routingLimit]
  rfl

/-! ### A decision after the snapshot -/

def lateDecision : ReviewCall := .decide .ascii 5 1 .accept (some "alice") .null none

def lateSchedule : List RaceLabel :=
  [.pass, .pass, .pass, .locked 1, .decided lateDecision true [1], .pass]

theorem lateDecision_succeeds : (lateDecision.run ⟨.empty, []⟩ openRows).1.toBool = true := by
  decide +kernel

theorem chosenIds_openRows : chosenIds byCodePoint (7/20) none openRows.fieldReviews = [1] := by
  have only : openRows.fieldReviews.filter (FieldReview.eligible (7/20)) =
      [openRow 1 "title" (3/10)] := by
    norm_num [openRows, openRow, FieldReview.eligible]
  rw [chosenIds, rankedRows, only, List.mergeSort_singleton]
  rfl

/-- The pass has chosen row 1, Alice accepts it, and the pass comes to write it. -/
theorem lateSchedule_aborts :
    ∃ v, Race.Run byCodePoint 9 (7/20) none ⟨openRows, .started, []⟩ lateSchedule v ∧
      v.pass = .aborted := by
  have succeeds := lateDecision_succeeds
  have decides : lateDecision.decidesOn 1 = true := rfl
  have legal := lateDecision.run_legal ⟨.empty, []⟩ openRows_legal
  obtain ⟨-, row, member, same, reviewed⟩ :=
    lateDecision.run_decides openRows_legal decides succeeds
  have latest : (lateDecision.run ⟨.empty, []⟩ openRows).2.fieldReviews.find? (·.id = 1) =
      some row := by
    rw [← same]
    exact legal.table.ids.find? member
  have violated : ¬ ∀ check ∈ (row.route 9).rowChecks, check.2 = true := fun routed =>
    (FieldReview.route_checked_iff (legal.checked row member)).mp routed reviewed
  have snapshot := @Race.Step.snapshot byCodePoint 9 (7/20) none openRows []
    (openRows.fieldReviews.countP (FieldReview.eligible (7/20)))
    (outstandingRows openRows.fieldReviews) [1] (by simp [routingLimit])
    (.of_eq chosenIds_openRows.symm)
  have decided := @Race.Step.decide byCodePoint 9 (7/20) none openRows (.updating [1] []) [1] 1
    lateDecision ⟨.empty, []⟩ (by simp) rfl
  rw [succeeds] at decided
  have aborts := @Race.Step.violate byCodePoint 9 (7/20) none _ ([1].erase 1) 1 [] [] row (by simp)
    latest violated
  exact ⟨_, .snoc (.snoc (.snoc (.snoc (.snoc (.snoc .refl (.count (by simp))) .outstanding)
    snapshot) (.lock (by simp) (by simp [Pass.locked]))) decided) aborts, rfl⟩

theorem routing_pass_violates :
    ∃ labels v, Race.Run byCodePoint 9 (7/20) none ⟨openRows, .started, []⟩ labels v ∧
      v.pass = .aborted := ⟨lateSchedule, lateSchedule_aborts⟩

theorem routing_pass_late_decision :
    ∃ v, Race.Run byCodePoint 9 (7/20) none ⟨openRows, .started, []⟩ lateSchedule v ∧
      ¬ ∀ label ∈ lateSchedule, ¬ label.Disturbs := by
  obtain ⟨v, run, aborted⟩ := lateSchedule_aborts
  have law := routing_pass_completes_iff openRows_legal run (by rw [aborted]; rfl)
  exact ⟨v, run, fun calm => (law.mpr calm).2 aborted⟩

end IncidentPipeline
