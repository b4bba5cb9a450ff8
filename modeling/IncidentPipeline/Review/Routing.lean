import IncidentPipeline.Db.Schema

/-!
# The routing pass

`review/routing`: the ranking, the count of outstanding fields, and the pass. The order
of field names is the collation of the database, any linear order.
-/

namespace IncidentPipeline

open Transactions

structure RankedField where
  id : Uuid
  extractionId : Uuid
  field : String
  confidence : Confidence

def FieldReview.ranked (r : FieldReview) : RankedField :=
  ⟨r.id, r.extractionId, r.field, r.confidence⟩

structure RoutingResult where
  floor : ℚ
  budget : Option Int
  eligible : Nat
  outstandingBefore : Nat
  routed : List RankedField

/-- How the database compares two field names: whether the first comes no later. -/
abbrev Collation := String → String → Bool

/-- `ORDER BY confidence ASC, created_at ASC, field ASC`. -/
def rankLe (collation : Collation) (a b : FieldReview) : Bool :=
  if a.confidence = b.confidence then
    if a.createdAt = b.createdAt then collation a.field b.field
    else a.createdAt < b.createdAt
  else a.confidence < b.confidence

/-- `review_state = 'unreviewed' AND confidence < :floor`. -/
def FieldReview.eligible (floor : ℚ) (r : FieldReview) : Bool :=
  r.reviewState = .unreviewed && r.confidence < floor

/-- The eligible rows in rank order. -/
def rankedRows (collation : Collation) (floor : ℚ) (rows : List FieldReview) :
    List FieldReview :=
  (rows.filter (FieldReview.eligible floor)).mergeSort (rankLe collation)

def rankEligible (collation : Collation) (floor : ℚ) : Db (List RankedField) :=
  .execute (select [] fun d => (rankedRows collation floor d.fieldReviews).map FieldReview.ranked)

def outstandingRows (rows : List FieldReview) : Nat := rows.countP (·.reviewState = .routed)

def outstanding : Db Nat := .execute (select [] fun d => outstandingRows d.fieldReviews)

/-- `pg_advisory_xact_lock`: it waits for other passes and changes no row. -/
def routingLockSql : Sql Unit := select [] fun _ => ()

def countEligibleSql (floor : ℚ) : Sql Nat :=
  select [] fun d => d.fieldReviews.countP (FieldReview.eligible floor)

def FieldReview.route (r : FieldReview) (now : Time) : FieldReview :=
  { r with reviewState := .routed, routedAt := some now }

/-- The first `limit` rows, all of them without a limit. -/
def takeLimit {α : Type} (limit : Option Nat) (rows : List α) : List α :=
  match limit with
  | none => rows
  | some n => rows.take n

/-- The `UPDATE` of the pass, which returns the rows it routed. -/
def routeSql (collation : Collation) (now : Time) (floor : ℚ) (limit : Option Nat) :
    Sql (List FieldReview) :=
  sql fun _ d =>
    let chosen := (takeLimit limit (rankedRows collation floor d.fieldReviews)).map FieldReview.id
    let rows := d.fieldReviews.filter (·.id ∈ chosen)
    .ok (rows.map (·.route now), rows.map fun r => .updateFieldReview r (r.route now))

/-- Python's order of `(confidence, field)`. -/
def resultLe (a b : RankedField) : Bool :=
  if a.confidence = b.confidence then a.field ≤ b.field else a.confidence < b.confidence

def negativeBudget : Exc :=
  ⟨.valueError, "review budget must be non-negative or None (uncapped)", []⟩

/-- How many rows a pass may route. -/
def routingLimit (budget : Option Int) (outstandingBefore : Nat) : Option Nat :=
  budget.map fun b : Int => (b - outstandingBefore).toNat

def routePending (collation : Collation) (now : Time) (floor : ℚ) (budget : Option Int) :
    Db RoutingResult :=
  if budget.any (· < 0) then .raise negativeBudget
  else do
    .execute routingLockSql
    let eligible ← .execute (countEligibleSql floor)
    let outstandingBefore ← outstanding
    let limit := routingLimit budget outstandingBefore
    if limit = some 0 then return ⟨floor, budget, eligible, outstandingBefore, []⟩
    else do
      let rows ← .execute (routeSql collation now floor limit)
      return ⟨floor, budget, eligible, outstandingBefore,
        (rows.map FieldReview.ranked).mergeSort resultLe⟩

end IncidentPipeline
