import IncidentPipeline.Foundation.Ranking
import IncidentPipeline.Review.States

/-!
# The greedy law of the routing pass

A pass counts the eligible rows, counts the outstanding ones, and updates as many rows
as there is room for. `routePending_serial` puts the three statements together: the
pass admits a prefix of the ranking. What passes and decisions do to the queue follows
from that by the general laws of admission in rank order.
-/

namespace IncidentPipeline

open Ranking Tables Transactions

/-! ### The order -/

/-- The columns of `_RANK_ORDER`. -/
def FieldReview.rankKey (r : FieldReview) : Confidence × Time × String :=
  (r.confidence, r.createdAt, r.field)

/-- The comparison of field names is a linear order. -/
structure Collation.Linear (collation : Collation) : Prop where
  total : ∀ a b, (collation a b || collation b a) = true
  trans : ∀ a b c, collation a b = true → collation b c = true → collation a c = true
  antisymm : ∀ a b, collation a b = true → collation b a = true → a = b

variable {collation : Collation} {r s t : FieldReview} {rows : List FieldReview}

theorem rankLe_iff :
    rankLe collation r s = true ↔ r.confidence < s.confidence ∨ (r.confidence = s.confidence ∧
      (r.createdAt < s.createdAt ∨
        (r.createdAt = s.createdAt ∧ collation r.field s.field = true))) := by
  rw [rankLe]
  by_cases confidence : r.confidence = s.confidence
  · by_cases createdAt : r.createdAt = s.createdAt <;> simp [confidence, createdAt]
  · simp [confidence]

theorem Collation.Linear.ranks (linear : collation.Linear) : Ranks (rankLe collation) where
  total r s := by
    rw [Bool.or_eq_true, rankLe_iff, rankLe_iff]
    have names := linear.total r.field s.field
    rw [Bool.or_eq_true] at names
    obtain h | h | h := lt_trichotomy r.confidence s.confidence
    · exact .inl (.inl h)
    · obtain k | k | k := lt_trichotomy r.createdAt s.createdAt
      · exact .inl (.inr ⟨h, .inl k⟩)
      · exact names.imp (fun n => .inr ⟨h, .inr ⟨k, n⟩⟩) (fun n => .inr ⟨h.symm, .inr ⟨k.symm, n⟩⟩)
      · exact .inr (.inr ⟨h.symm, .inl k⟩)
    · exact .inr (.inl h)
  trans r s t first second := by
    rw [rankLe_iff] at first second ⊢
    obtain h | ⟨h, first⟩ := first
    · obtain k | ⟨k, _⟩ := second
      · exact .inl (h.trans k)
      · exact .inl (k ▸ h)
    obtain k | ⟨k, second⟩ := second
    · exact .inl (h ▸ k)
    refine .inr ⟨h.trans k, ?_⟩
    obtain l | ⟨l, first⟩ := first
    · obtain m | ⟨m, _⟩ := second
      · exact .inl (l.trans m)
      · exact .inl (m ▸ l)
    obtain m | ⟨m, second⟩ := second
    · exact .inl (l ▸ m)
    · exact .inr ⟨l.trans m, linear.trans _ _ _ first second⟩

theorem rankKey_eq (linear : collation.Linear) (first : rankLe collation r s = true)
    (second : rankLe collation s r = true) : r.rankKey = s.rankKey := by
  rw [rankLe_iff] at first second
  have confidence : r.confidence = s.confidence :=
    le_antisymm (first.elim le_of_lt fun h => h.1.le) (second.elim le_of_lt fun h => h.1.le)
  have first := (first.resolve_left (by simp [confidence])).2
  have second := (second.resolve_left (by simp [confidence])).2
  have createdAt : r.createdAt = s.createdAt :=
    le_antisymm (first.elim le_of_lt fun h => h.1.le) (second.elim le_of_lt fun h => h.1.le)
  have first := (first.resolve_left (by simp [createdAt])).2
  have second := (second.resolve_left (by simp [createdAt])).2
  rw [FieldReview.rankKey, FieldReview.rankKey, confidence, createdAt,
    linear.antisymm _ _ first second]

/-- No two unreviewed rows agree in all the columns of the order. -/
def NoTies (rows : List FieldReview) : Prop :=
  ∀ r ∈ rows, ∀ s ∈ rows, r.reviewState = .unreviewed → s.reviewState = .unreviewed →
    r.rankKey = s.rankKey → r = s

theorem NoTies.untied (linear : collation.Linear) (noTies : NoTies rows) (floor : ℚ) :
    Untied (rankLe collation) (rows.filter (FieldReview.eligible floor)) := by
  intro r hr s hs first second
  obtain ⟨hr, er⟩ := List.mem_filter.mp hr
  obtain ⟨hs, es⟩ := List.mem_filter.mp hs
  exact noTies r hr s hs (FieldReview.eligible_iff.mp er).1 (FieldReview.eligible_iff.mp es).1
    (rankKey_eq linear first second)

/-! ### One pass -/

/-- How many rows a pass routes. -/
def passSize (budget : Option Int) (eligible outstanding : Nat) : Nat :=
  match budget with
  | none => eligible
  | some b => min eligible (max 0 (b - outstanding)).toNat

/-- A budget as a number of rows. -/
def capOf (budget : Option Int) : Option Nat := budget.map Int.toNat

theorem passSize_eq_room (budget : Option Int) (eligible outstanding : Nat) :
    passSize budget eligible outstanding = room (capOf budget) eligible outstanding := by
  cases budget with
  | none => rfl
  | some b =>
      simp only [passSize, room, capOf, Option.map_some]
      omega

theorem length_rankedRows (collation : Collation) (floor : ℚ) (rows : List FieldReview) :
    (rankedRows collation floor rows).length = rows.countP (FieldReview.eligible floor) := by
  rw [rankedRows, List.length_mergeSort, List.countP_eq_length_filter]

/-- The rows a pass routes, in rank order. -/
def admitted (collation : Collation) (floor : ℚ) (budget : Option Int)
    (rows : List FieldReview) : List FieldReview :=
  (rankedRows collation floor rows).take
    (passSize budget (rows.countP (FieldReview.eligible floor)) (outstandingRows rows))

/-- What the `UPDATE` of a pass returns: the rows it routes, as they stand in the table. -/
def returned (collation : Collation) (floor : ℚ) (budget : Option Int)
    (rows : List FieldReview) : List FieldReview :=
  rows.filter fun r => r.id ∈ (admitted collation floor budget rows).map FieldReview.id

/-- The table after a pass. -/
def afterPass (collation : Collation) (now : Time) (floor : ℚ) (budget : Option Int)
    (rows : List FieldReview) : List FieldReview :=
  rows.map (routeRow now ((admitted collation floor budget rows).map FieldReview.id))

theorem takeLimit_routingLimit (collation : Collation) (floor : ℚ) (budget : Option Int)
    (rows : List FieldReview) :
    takeLimit (routingLimit budget (outstandingRows rows)) (rankedRows collation floor rows) =
      admitted collation floor budget rows := by
  have length := length_rankedRows collation floor rows
  cases budget with
  | none => exact (List.take_of_length_le length.le).symm
  | some b =>
      have clamp : (max 0 (b - outstandingRows rows)).toNat =
          (b - (outstandingRows rows : Int)).toNat := by omega
      simp only [takeLimit, routingLimit, Option.map_some, admitted, passSize, clamp, ← length]
      rw [List.take_eq_take_min, min_comm]

theorem map_routeRow_nil (now : Time) (rows : List FieldReview) :
    rows.map (routeRow now []) = rows := by
  refine (List.map_congr_left fun r _ => ?_).trans (List.map_id rows)
  exact if_neg List.not_mem_nil

/-- A pass with a sane budget succeeds on every legal table, routes a prefix, and reports it by
confidence and field name. -/
theorem routePending_serial {now : Time} {floor : ℚ} {budget : Option Int} {context : Context}
    {d : Database} (sane : ∀ b, budget = some b → 0 ≤ b) (legal : LegalReviews d.fieldReviews) :
    ∃ result, (routePending collation now floor budget).serial postgres context ⟨d, false⟩ =
      (.ok result,
        ⟨{ d with fieldReviews := afterPass collation now floor budget d.fieldReviews },
          false⟩) ∧
      result.routed =
        ((returned collation floor budget d.fieldReviews).map FieldReview.ranked).mergeSort
          resultLe := by
  have allowed : ¬ budget.any (· < 0) = true := by
    cases budget with
    | none => simp
    | some b => simpa using sane b rfl
  have chosen := takeLimit_routingLimit collation floor budget d.fieldReviews
  rw [routePending, if_neg allowed]
  simp only [Prog.bind_eq, Prog.serial_bind, routingLockSql, countEligibleSql, outstanding,
    serial_select]
  by_cases full : routingLimit budget (outstandingRows d.fieldReviews) = some 0
  · have none_admitted : admitted collation floor budget d.fieldReviews = [] := by
      rw [← chosen, full]
      rfl
    rw [if_pos full, afterPass, returned, none_admitted, List.map_nil, map_routeRow_nil]
    refine ⟨_, rfl, ?_⟩
    simp
  · rw [if_neg full]
    have replayed := @route_replay collation now floor
      (routingLimit budget (outstandingRows d.fieldReviews)) d legal
    rw [Prog.serial_bind, Prog.serial_execute_ok rfl rfl replayed, chosenIds, chosen]
    refine ⟨_, rfl, ?_⟩
    show (((returned collation floor budget d.fieldReviews).map (·.route now)).map
      FieldReview.ranked).mergeSort resultLe = _
    rw [List.map_map]
    rfl

/-! ### The queue after a pass -/

theorem eligible_routeRow (now : Time) (chosen : List Uuid) (floor : ℚ) (r : FieldReview) :
    (routeRow now chosen r).eligible floor = (r.eligible floor && decide (r.id ∉ chosen)) := by
  rw [routeRow]
  split
  · next h => simp [FieldReview.eligible, FieldReview.route, h]
  · next h => simp [h]

/-- A pass leaves the eligible rows that it did not choose. -/
theorem filter_eligible_route (now : Time) (chosen : List Uuid) (floor : ℚ)
    (rows : List FieldReview) :
    (rows.map (routeRow now chosen)).filter (FieldReview.eligible floor) =
      (rows.filter (FieldReview.eligible floor)).filter (fun r => r.id ∉ chosen) := by
  induction rows with
  | nil => rfl
  | cons r rest ih =>
      rw [List.map_cons, List.filter_cons, eligible_routeRow, List.filter_cons, ih]
      by_cases eligible : r.eligible floor = true
      · by_cases h : r.id ∈ chosen
        · simp [eligible, h]
        · simp [eligible, h, routeRow]
      · simp [eligible]

theorem keyed_rankedRows (keyed : Keyed FieldReview.id rows) (floor : ℚ) :
    Keyed FieldReview.id (rankedRows collation floor rows) := by
  have eligible : Keyed FieldReview.id (rows.filter (FieldReview.eligible floor)) :=
    List.Nodup.sublist (List.filter_sublist.map FieldReview.id) keyed
  exact (((rows.filter _).mergeSort_perm (rankLe collation)).map FieldReview.id).nodup_iff.mpr
    eligible

theorem length_admitted (floor : ℚ) (budget : Option Int) :
    (admitted collation floor budget rows).length =
      passSize budget (rows.countP (FieldReview.eligible floor)) (outstandingRows rows) := by
  rw [admitted, List.length_take, length_rankedRows, passSize_eq_room]
  exact min_eq_left (room_le _ _ _)

theorem mem_of_mem_admitted {floor : ℚ} {budget : Option Int}
    (h : r ∈ admitted collation floor budget rows) : r ∈ rows ∧ r.eligible floor = true :=
  mem_rankedRows.mp (List.mem_of_mem_take h)

/-- The ranking after a pass is what the pass left of it. -/
theorem rankedRows_afterPass (linear : collation.Linear) (noTies : NoTies rows)
    (keyed : Keyed FieldReview.id rows) (now : Time) (floor : ℚ) (budget : Option Int) :
    rankedRows collation floor (afterPass collation now floor budget rows) =
      (rankedRows collation floor rows).drop (admitted collation floor budget rows).length := by
  have admits : admitted collation floor budget rows = (rankedRows collation floor rows).take
      (admitted collation floor budget rows).length := by
    rw [length_admitted]
    rfl
  rw [← filter_notMem_take (keyed_rankedRows keyed floor), ← admits, rankedRows, afterPass,
    filter_eligible_route, linear.ranks.mergeSort_filter (noTies.untied linear floor)]
  rfl

theorem outstandingRows_route {chosen : List Uuid} (now : Time)
    (unreviewed : ∀ r ∈ rows, r.id ∈ chosen → r.reviewState = .unreviewed) :
    outstandingRows (rows.map (routeRow now chosen)) =
      outstandingRows rows + rows.countP (·.id ∈ chosen) := by
  induction rows with
  | nil => rfl
  | cons r rest ih =>
      have later := ih fun s hs => unreviewed s (List.mem_cons_of_mem _ hs)
      simp only [outstandingRows, List.map_cons, List.countP_cons] at later ⊢
      rw [later]
      by_cases h : r.id ∈ chosen
      · have state := unreviewed r List.mem_cons_self h
        simp only [routeRow, FieldReview.route, state, h, decide_true, if_true,
          reduceCtorEq, decide_false, Bool.false_eq_true, if_false]
        omega
      · simp only [routeRow, h, decide_false, Bool.false_eq_true, if_false]
        omega

theorem mem_admitted_of_id (keyed : Keyed FieldReview.id rows) {floor : ℚ} {budget : Option Int}
    (hr : r ∈ rows) (h : r.id ∈ (admitted collation floor budget rows).map FieldReview.id) :
    r ∈ admitted collation floor budget rows := by
  obtain ⟨s, hs, same⟩ := List.mem_map.mp h
  rwa [← keyed.eq_of_key (mem_of_mem_admitted hs).1 hr same]

/-- The rows that are returned are the admitted ones, in another order. -/
theorem returned_perm (keyed : Keyed FieldReview.id rows) (floor : ℚ) (budget : Option Int) :
    (returned collation floor budget rows).Perm (admitted collation floor budget rows) := by
  refine (List.perm_ext_iff_of_nodup ?_ ?_).mpr fun r => ?_
  · exact (List.Nodup.of_map _ keyed).filter _
  · exact (List.Nodup.of_map _ (keyed_rankedRows keyed floor)).sublist (List.take_sublist _ _)
  · rw [returned, List.mem_filter, decide_eq_true_eq]
    exact ⟨fun h => mem_admitted_of_id keyed h.1 h.2,
      fun h => ⟨(mem_of_mem_admitted h).1, List.mem_map_of_mem h⟩⟩

/-- A pass adds to the outstanding rows the ones it admits. -/
theorem outstandingRows_afterPass (keyed : Keyed FieldReview.id rows) (now : Time) (floor : ℚ)
    (budget : Option Int) :
    outstandingRows (afterPass collation now floor budget rows) =
      outstandingRows rows + (admitted collation floor budget rows).length := by
  rw [afterPass, outstandingRows_route, List.countP_eq_length_filter, ← returned,
    (returned_perm keyed floor budget).length_eq]
  intro r hr h
  have admitted := mem_admitted_of_id keyed hr h
  exact (FieldReview.eligible_iff.mp (mem_of_mem_admitted admitted).2).1

theorem countP_eligible_afterPass (linear : collation.Linear) (noTies : NoTies rows)
    (keyed : Keyed FieldReview.id rows) (now : Time) (floor : ℚ) (budget : Option Int) :
    (afterPass collation now floor budget rows).countP (FieldReview.eligible floor) =
      rows.countP (FieldReview.eligible floor) -
        (admitted collation floor budget rows).length := by
  rw [← length_rankedRows collation, rankedRows_afterPass linear noTies keyed, List.length_drop,
    length_rankedRows]

/-! ### Consequences for one pass -/

theorem afterPass_le_budget (keyed : Keyed FieldReview.id rows) (now : Time) (floor : ℚ) (b : Int) :
    (outstandingRows (afterPass collation now floor (some b) rows) : Int) ≤
      max b (outstandingRows rows) := by
  have bound := taken_add_room_le b.toNat (rows.countP (FieldReview.eligible floor))
    (outstandingRows rows)
  rw [outstandingRows_afterPass keyed, length_admitted, passSize_eq_room, capOf, Option.map_some]
  omega

/-- No row left unreviewed ranks ahead of one that was routed, or with it. -/
theorem afterPass_greedy (linear : collation.Linear) (noTies : NoTies rows)
    {now : Time} {floor : ℚ} {budget : Option Int} (hr : r ∈ admitted collation floor budget rows)
    (hs : s ∈ afterPass collation now floor budget rows) (left : s.reviewState = .unreviewed) :
    rankLe collation s r = false := by
  obtain ⟨s, member', rfl⟩ := List.mem_map.mp hs
  unfold routeRow at left ⊢
  split at left
  · cases left
  next apart =>
    rw [if_neg apart]
    refine Bool.eq_false_iff.mpr fun ahead => ?_
    obtain ⟨member, eligible⟩ := mem_of_mem_admitted hr
    obtain ⟨state, below⟩ := FieldReview.eligible_iff.mp eligible
    have no_more : s.confidence ≤ r.confidence :=
      (rankLe_iff.mp ahead).elim le_of_lt fun h => h.1.le
    have ranked : s ∈ rankedRows collation floor rows :=
      mem_rankedRows.mpr ⟨member', FieldReview.eligible_iff.mpr ⟨left, no_more.trans_lt below⟩⟩
    rw [← List.take_append_drop (passSize budget (rows.countP (FieldReview.eligible floor))
      (outstandingRows rows)) (rankedRows collation floor rows), List.mem_append] at ranked
    obtain admitted | later := ranked
    · exact apart (List.mem_map_of_mem admitted)
    · have behind := take_le_drop (linear.ranks.sorted _) _ r hr s later
      have same := noTies r member s member' state left (rankKey_eq linear behind ahead)
      exact apart (same ▸ List.mem_map_of_mem hr)

/-- A second pass at the same floor and budget routes nothing. -/
theorem afterPass_again (linear : collation.Linear) (noTies : NoTies rows)
    (keyed : Keyed FieldReview.id rows) (now later : Time) (floor : ℚ) (budget : Option Int) :
    afterPass collation later floor budget (afterPass collation now floor budget rows) =
      afterPass collation now floor budget rows := by
  have none_admitted :
      admitted collation floor budget (afterPass collation now floor budget rows) = [] := by
    rw [← List.length_eq_zero_iff, length_admitted, countP_eligible_afterPass linear noTies keyed,
      outstandingRows_afterPass keyed, length_admitted, passSize_eq_room, passSize_eq_room]
    exact room_again _ _ _
  rw [afterPass, none_admitted, List.map_nil, map_routeRow_nil]

/-- What a reviewer's queue shows of a row. -/
def FieldReview.position (r : FieldReview) : Uuid × ReviewState := (r.id, r.reviewState)

theorem position_routeRow (now : Time) (chosen : List Uuid) (r : FieldReview) :
    (routeRow now chosen r).position =
      (r.id, if r.id ∈ chosen then .routed else r.reviewState) := by
  rw [routeRow]
  split <;> rfl

theorem NoTies.afterPass (noTies : NoTies rows) (now : Time) (floor : ℚ) (budget : Option Int) :
    NoTies (afterPass collation now floor budget rows) := by
  have kept : ∀ r ∈ IncidentPipeline.afterPass collation now floor budget rows,
      r.reviewState = .unreviewed → r ∈ rows := by
    intro r hr left
    obtain ⟨r, member, rfl⟩ := List.mem_map.mp hr
    unfold routeRow at left ⊢
    split at left
    · cases left
    next apart =>
      rw [if_neg apart]
      exact member
  exact fun r hr s hs hr' hs' => noTies r (kept r hr hr') s (kept s hs hs') hr' hs'

theorem admitted_eq_take (floor : ℚ) (budget : Option Int) :
    admitted collation floor budget rows =
      (rankedRows collation floor rows).take (admitted collation floor budget rows).length := by
  rw [length_admitted]
  rfl

/-- Two passes under a smaller and a larger budget admit what the second does alone. -/
theorem admitted_afterPass (linear : collation.Linear) (noTies : NoTies rows)
    (keyed : Keyed FieldReview.id rows) (now : Time) (floor : ℚ) {first second : Option Int}
    (le : CapLe (capOf first) (capOf second)) :
    admitted collation floor first rows ++
        admitted collation floor second (afterPass collation now floor first rows) =
      admitted collation floor second rows := by
  have length := @length_admitted collation (afterPass collation now floor first rows) floor second
  rw [countP_eligible_afterPass linear noTies keyed, outstandingRows_afterPass keyed] at length
  have count : (admitted collation floor first rows).length +
      (admitted collation floor second (afterPass collation now floor first rows)).length =
        (admitted collation floor second rows).length := by
    rw [length]
    simp only [length_admitted, passSize_eq_room]
    exact room_add_room le _ _
  have after := @admitted_eq_take collation (afterPass collation now floor first rows) floor second
  rw [rankedRows_afterPass linear noTies keyed] at after
  calc admitted collation floor first rows ++
        admitted collation floor second (afterPass collation now floor first rows)
      = (rankedRows collation floor rows).take (admitted collation floor first rows).length ++
          ((rankedRows collation floor rows).drop
            (admitted collation floor first rows).length).take
              (admitted collation floor second
                (afterPass collation now floor first rows)).length := by
        rw [← admitted_eq_take, ← after]
    _ = admitted collation floor second rows := by
        rw [← List.take_add, count, ← admitted_eq_take]

/-- A pass under a smaller budget first changes nothing about which rows are routed. -/
theorem afterPass_compose (linear : collation.Linear) (noTies : NoTies rows)
    (keyed : Keyed FieldReview.id rows) (now later : Time) (floor : ℚ)
    {first second : Option Int} (le : CapLe (capOf first) (capOf second)) :
    (afterPass collation later floor second
      (afterPass collation now floor first rows)).map FieldReview.position =
      (afterPass collation later floor second rows).map FieldReview.position := by
  have both := admitted_afterPass linear noTies keyed now floor le
  conv_lhs => rw [afterPass]
  generalize admitted collation floor second (afterPass collation now floor first rows) = more
    at both ⊢
  rw [afterPass, afterPass, ← both, List.map_map, List.map_map, List.map_map]
  refine List.map_congr_left fun r _ => ?_
  have id : (routeRow now ((admitted collation floor first rows).map FieldReview.id) r).id = r.id :=
    congrArg Prod.fst (position_routeRow now _ r)
  have state := congrArg Prod.snd
    (position_routeRow now ((admitted collation floor first rows).map FieldReview.id) r)
  simp only [Function.comp_apply, position_routeRow, id, List.map_append, List.mem_append]
  simp only [FieldReview.position] at state
  by_cases early : r.id ∈ (admitted collation floor first rows).map FieldReview.id
  · simp [state, early]
  · by_cases late : r.id ∈ more.map FieldReview.id
    · simp [late]
    · simp [state, early, late]

/-- What is eligible at a lower floor comes first in the ranking of a higher one. -/
theorem rankedRows_lower_floor (linear : collation.Linear) (noTies : NoTies rows) {low high : ℚ}
    (le : low ≤ high) : rankedRows collation low rows <+: rankedRows collation high rows := by
  have lower : rows.filter (FieldReview.eligible low) =
      (rows.filter (FieldReview.eligible high)).filter (fun r => r.confidence < (low : Confidence)) := by
    rw [List.filter_filter]
    refine List.filter_congr fun r _ => Bool.eq_iff_iff.mpr ?_
    rw [Bool.and_eq_true, FieldReview.eligible_iff, FieldReview.eligible_iff, decide_eq_true_eq]
    exact ⟨fun h => ⟨h.2, h.1, h.2.trans_le (WithTop.coe_le_coe.mpr le)⟩, fun h => ⟨h.2.1, h.1⟩⟩
  rw [rankedRows, lower, linear.ranks.mergeSort_filter (noTies.untied linear high)]
  refine filter_downClosed (linear.ranks.sorted _) fun r s ahead below => ?_
  have no_more : r.confidence ≤ s.confidence :=
    (rankLe_iff.mp ahead).elim le_of_lt fun h => h.1.le
  exact decide_eq_true (no_more.trans_lt (of_decide_eq_true below))

/-! ### Histories of passes and decisions -/

variable {call : ReviewCall} {d : Database}

theorem ReviewCall.Does.leaves (h : call.Does r s) : s.reviewState ≠ .unreviewed := by
  unfold ReviewCall.Does at h
  split at h
  · exact h.elim
  · obtain ⟨_, rfl⟩ := h
    simp [FieldReview.route]
  · obtain ⟨queued, rfl⟩ := h
    simp [FieldReview.skip, queued]
  · obtain ⟨_, _, rfl⟩ := h
    simp [FieldReview.accept]
  · obtain ⟨_, _, _, _, rfl⟩ := h
    simp [FieldReview.correct]

/-- The rows that passes and decisions leave unreviewed were there before, unchanged. -/
theorem ReviewCall.run_unreviewed (context : Context) (legal : LegalReviews d.fieldReviews)
    (keeps : call.creates = false) :
    ∀ s ∈ (call.run context d).2.fieldReviews, s.reviewState = .unreviewed →
      s ∈ d.fieldReviews := by
  intro s hs left
  obtain ⟨r, hr, same | does⟩ := call.run_origin context legal keeps s hs
  · rwa [same]
  · exact absurd left does.leaves

/-- Passes and decisions introduce no ties. -/
theorem reviewHistory_noTies {history : List (Context × ReviewCall)}
    (keeps : ∀ entry ∈ history, entry.2.creates = false) (legal : LegalReviews d.fieldReviews)
    (noTies : NoTies d.fieldReviews) :
    LegalReviews (reviewHistory history d).fieldReviews ∧
      NoTies (reviewHistory history d).fieldReviews := by
  induction history generalizing d with
  | nil => exact ⟨legal, noTies⟩
  | cons entry rest ih =>
      have kept := entry.2.run_unreviewed entry.1 legal (keeps entry List.mem_cons_self)
      apply ih (fun later h => keeps later (List.mem_cons_of_mem _ h))
      · exact entry.2.run_legal entry.1 legal
      · exact fun r hr s hs hr' hs' => noTies r (kept r hr hr') s (kept s hs hs') hr' hs'

/-- A pass executed alone: its result and the tables after it. -/
def pass (collation : Collation) (context : Context) (now : Time) (floor : ℚ)
    (budget : Option Int) (d : Database) : Except Exc RoutingResult × Database :=
  (((routePending collation now floor budget).serial postgres context ⟨d, false⟩).1,
    ((routePending collation now floor budget).serial postgres context ⟨d, false⟩).2.db)

/-- `budget` is not larger than `larger`, where no budget is the largest. -/
def BudgetLe (budget larger : Option Int) : Prop :=
  ∀ b, larger = some b → ∃ a, budget = some a ∧ a ≤ b

theorem BudgetLe.capLe {budget larger : Option Int} (le : BudgetLe budget larger) :
    CapLe (capOf budget) (capOf larger) := by
  cases larger with
  | none => cases budget <;> exact trivial
  | some b =>
      obtain ⟨a, rfl, h⟩ := le b rfl
      exact Int.toNat_le_toNat h

theorem pass_eq (context : Context) (now : Time) (floor : ℚ) {budget : Option Int}
    (sane : ∀ b, budget = some b → 0 ≤ b) (legal : LegalReviews d.fieldReviews) :
    ∃ result, pass collation context now floor budget d = (.ok result,
      { d with fieldReviews := afterPass collation now floor budget d.fieldReviews }) := by
  obtain ⟨result, h, _⟩ := @routePending_serial collation now floor budget context d sane legal
  exact ⟨result, by rw [pass, h]⟩

/-- A pass is one of the calls. -/
theorem run_route (context : Context) (now : Time) (floor : ℚ) (budget : Option Int) :
    ((ReviewCall.route collation now floor budget).run context d).2 =
      (pass collation context now floor budget d).2 := by
  rw [ReviewCall.run, ReviewCall.program, Prog.bind_eq, Prog.serial_bind, pass]
  split <;> rfl

theorem rankEligible_serial (context : Context) (floor : ℚ) :
    (rankEligible collation floor).serial postgres context ⟨d, false⟩ =
      (.ok ((rankedRows collation floor d.fieldReviews).map FieldReview.ranked), ⟨d, false⟩) :=
  serial_select

/-- The greedy law of routing, after any history of passes and decisions. The ranking is
the only sorted order of the eligible rows; a pass routes the first rows of it, as many as
there is room for, and changes no other. So the queue never grows over the budget, no
unreviewed row ranks ahead of a routed one, a repeated pass and a pass under a smaller
budget before are as good as none, and a lower floor keeps a prefix. -/
theorem routing_is_greedy (linear : collation.Linear) {start : Database}
    (legal : LegalReviews start.fieldReviews) (noTies : NoTies start.fieldReviews)
    {history : List (Context × ReviewCall)} (keeps : ∀ entry ∈ history, entry.2.creates = false)
    (context : Context) (now : Time) (floor : ℚ) {budget : Option Int}
    (sane : ∀ b, budget = some b → 0 ≤ b) :
    let d := reviewHistory history start
    let k := passSize budget (d.fieldReviews.countP (FieldReview.eligible floor))
      (outstandingRows d.fieldReviews)
    let d' := (pass collation context now floor budget d).2
    ∃ ranked result,
      (rankEligible collation floor).serial postgres context ⟨d, false⟩ = (.ok ranked, ⟨d, false⟩) ∧
      (∀ order : List FieldReview,
        order.Perm (d.fieldReviews.filter (FieldReview.eligible floor)) →
        order.Pairwise (fun r s => rankLe collation r s = true) →
          order.map FieldReview.ranked = ranked) ∧
      (pass collation context now floor budget d).1 = .ok result ∧
      d' = { d with fieldReviews := d'.fieldReviews } ∧
      d'.fieldReviews =
        d.fieldReviews.map (routeRow now ((ranked.take k).map RankedField.id)) ∧
      (∀ b, budget = some b →
        (outstandingRows d'.fieldReviews : Int) ≤ max b (outstandingRows d.fieldReviews)) ∧
      (∀ r ∈ d.fieldReviews, r.reviewState = .unreviewed → r.route now ∈ d'.fieldReviews →
        ∀ s ∈ d'.fieldReviews, s.reviewState = .unreviewed → rankLe collation s r = false) ∧
      (∀ context later, (pass collation context later floor budget d').2 = d') ∧
      (∀ context later larger, BudgetLe budget larger →
        (pass collation context later floor larger d').2.fieldReviews.map FieldReview.position =
          (pass collation context later floor larger d).2.fieldReviews.map
            FieldReview.position) ∧
      ∀ lower, lower ≤ floor → ∃ fewer,
        (rankEligible collation lower).serial postgres context ⟨d, false⟩ =
          (.ok fewer, ⟨d, false⟩) ∧ fewer <+: ranked := by
  intro d k d'
  obtain ⟨legal, noTies⟩ : LegalReviews d.fieldReviews ∧ NoTies d.fieldReviews :=
    reviewHistory_noTies keeps legal noTies
  obtain ⟨result, passed⟩ := @pass_eq collation d context now floor budget sane legal
  have after : d' = { d with
      fieldReviews := afterPass collation now floor budget d.fieldReviews } :=
    congrArg Prod.snd passed
  have legal' : LegalReviews d'.fieldReviews := by
    have kept := (ReviewCall.route collation now floor budget).run_legal context legal
    rwa [run_route] at kept
  refine ⟨_, result, rankEligible_serial context floor, ?_, congrArg Prod.fst passed,
    by rw [after], ?_, ?_, ?_, ?_, ?_, ?_⟩
  · intro order perm sorted
    rw [linear.ranks.unique (noTies.untied linear floor) perm sorted]
    rfl
  · rw [after, ← List.map_take, List.map_map]
    rfl
  · intro b capped
    rw [after, capped]
    exact afterPass_le_budget legal.table.ids now floor b
  · intro r hr state routed s hs left
    rw [after] at hs
    refine afterPass_greedy linear noTies ?_ hs left
    -- the row that is routed afterwards is the one that was chosen
    by_contra apart
    have same : routeRow now ((admitted collation floor budget d.fieldReviews).map
        FieldReview.id) r = r := by
      refine if_neg fun chosen => apart ?_
      obtain ⟨t, ht, key⟩ := List.mem_map.mp chosen
      rwa [← legal.table.ids.eq_of_key (mem_of_mem_admitted ht).1 hr key]
    have kept : r ∈ d'.fieldReviews := by
      rw [after]
      exact List.mem_map.mpr ⟨r, hr, same⟩
    have equal := legal'.table.ids.eq_of_key routed kept rfl
    have states := congrArg FieldReview.reviewState equal
    rw [state] at states
    cases states
  · intro context later
    obtain ⟨_, again⟩ := @pass_eq collation d' context later floor budget sane legal'
    rw [again, after]
    dsimp only
    rw [afterPass_again linear noTies legal.table.ids]
  · intro context later larger le
    have sane' : ∀ b, larger = some b → 0 ≤ b := by
      intro b hb
      obtain ⟨a, ha, h⟩ := le b hb
      exact (sane a ha).trans h
    obtain ⟨_, second⟩ := @pass_eq collation d' context later floor larger sane' legal'
    obtain ⟨_, single⟩ := @pass_eq collation d context later floor larger sane' legal
    rw [second, single, after]
    exact afterPass_compose linear noTies legal.table.ids now later floor le.capLe
  · intro lower le
    exact ⟨_, rankEligible_serial context lower,
      (rankedRows_lower_floor linear noTies le).map FieldReview.ranked⟩

/-! Two open rows, of which one is accepted before the pass. -/

def byCodePoint : Collation := fun a b => decide (a ≤ b)

theorem byCodePoint_linear : byCodePoint.Linear where
  total a b := by simpa [byCodePoint] using String.le_total a b
  trans a b c := by simpa [byCodePoint] using String.le_trans
  antisymm a b := by simpa [byCodePoint] using String.le_antisymm

def openRow (id : Uuid) (field : String) (confidence : ℚ) : FieldReview :=
  ⟨id, 7, field, confidence, .str "x", .unreviewed, none, 0, none, none, none, none, none, none, 0⟩

def openRows : Database :=
  { Database.empty with fieldReviews := [openRow 1 "title" (3/10), openRow 2 "status" (2/5)] }

theorem openRows_legal : LegalReviews openRows.fieldReviews := by
  refine ⟨⟨?_, ?_⟩, ?_⟩
  · show [1, 2].Nodup
    decide
  · show [(7, "title"), (7, "status")].Nodup
    decide
  · intro r hr
    obtain rfl | hr := List.mem_cons.mp hr
    · simp [FieldReview.checked_iff, openRow]
    · rw [List.mem_singleton.mp hr]
      simp [FieldReview.checked_iff, openRow]

theorem openRows_noTies : NoTies openRows.fieldReviews := by
  intro r hr s hs _ _ same
  simp only [openRows, List.mem_cons, List.not_mem_nil, or_false] at hr hs
  rcases hr with rfl | rfl <;> rcases hs with rfl | rfl <;>
    first | rfl | simp [FieldReview.rankKey, openRow] at same

def oneDecision : List (Context × ReviewCall) :=
  [(⟨.empty, []⟩, .decide .ascii 5 1 .accept (some "alice") .null none)]

theorem routing_is_greedy_two_rows :
    (pass byCodePoint ⟨.empty, []⟩ 9 (7/10) (some 1)
      (pass byCodePoint ⟨.empty, []⟩ 8 (7/10) (some 1) (reviewHistory oneDecision openRows)).2).2 =
      (pass byCodePoint ⟨.empty, []⟩ 8 (7/10) (some 1) (reviewHistory oneDecision openRows)).2 := by
  have law := @routing_is_greedy byCodePoint byCodePoint_linear openRows openRows_legal
    openRows_noTies oneDecision (by simp [oneDecision, ReviewCall.creates]) ⟨.empty, []⟩ 8 (7/10)
    (some 1) (by simp)
  obtain ⟨_, _, _, _, _, _, _, _, _, again, _⟩ := law
  exact again ⟨.empty, []⟩ 9

end IncidentPipeline
