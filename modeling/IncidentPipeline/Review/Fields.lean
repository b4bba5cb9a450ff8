import IncidentPipeline.Db.Schema
import IncidentPipeline.Foundation.Text
import IncidentPipeline.Review.Correction

/-!
# Review rows and decisions

`review/fields`: the rows that a complete extraction is created with, and the three
actions of a reviewer. The random identifiers of new rows are given from outside.
-/

namespace IncidentPipeline

open Python Transactions

/-- `record_json[field]` of a validated record. -/
def memberOf (value : Json) (field : String) : Json := (value.member? field).getD .null

theorem memberOf_eq {value w : Json} {field : String} (found : value.member? field = some w) :
    memberOf value field = w := by
  rw [memberOf, found, Option.getD_some]

/-- No part of a value without NUL has one. -/
theorem jsonHasNul_memberOf {value : Json} (taken : jsonHasNul value = false) (field : String) :
    jsonHasNul (memberOf value field) = false := by
  cases value with
  | obj members =>
      rw [jsonHasNul] at taken
      show jsonHasNul ((Dict.get? members field).getD .null) = false
      induction members with
      | nil => rfl
      | cons entry rest ih =>
          obtain ⟨key, v⟩ := entry
          rw [jsonHasNul.anyMember, Bool.or_eq_false_iff, Bool.or_eq_false_iff] at taken
          rw [Dict.get?_cons]
          split
          · exact taken.1.2
          · exact ih taken.2
  | _ => rfl

/-- A validated confidence, which is a number or NaN. -/
def numberOf : Json → Confidence
  | .num q => (q : ℚ)
  | _ => ⊤

def newFieldReview (id extractionId : Uuid) (now : Time) (record confidence : Json)
    (field : String) : FieldReview :=
  ⟨id, extractionId, field, numberOf (memberOf confidence field), memberOf record field,
    .unreviewed, none, 0, none, none, none, none, none, none, now⟩

/-- The rows in the order of `RECORD_FIELDS`; `ids` is the supply of identifiers. -/
def fieldReviewRows (ids : Nat → Uuid) (extractionId : Uuid) (now : Time)
    (record confidence : Json) : List FieldReview :=
  recordFields.zipIdx.map fun f => newFieldReview (ids f.2) extractionId now record confidence f.1

def insertFieldReviewsSql (rows : List FieldReview) : Sql Unit :=
  ⟨refusedText (rows.map FieldReview.field), fun _ _ =>
    if rows.any fun r => jsonHasNul r.modelValue then .error unsupportedEscape
    else .ok ((), rows.map .insertFieldReview)⟩

def createFieldReviews (ids : Nat → Uuid) (now : Time) (extractionId : Uuid)
    (record confidence : Json) : Db Nat := do
  let rows := fieldReviewRows ids extractionId now record confidence
  .execute (insertFieldReviewsSql rows)
  return rows.length

/-! ### Decisions -/

inductive Action where
  | accept
  | correct
  | skip
deriving DecidableEq, Repr

def ReviewState.value : ReviewState → String
  | .unreviewed => "unreviewed"
  | .routed => "routed"
  | .reviewed => "reviewed"

def fieldReviewNotFound (id : Uuid) : Exc :=
  ⟨.fieldReviewNotFoundError, "field review " ++ toString id ++ " does not exist", []⟩

def alreadyReviewed (row : FieldReview) : Exc :=
  ⟨.alreadyReviewedError,
    "field " ++ row.field ++ " of extraction " ++ toString row.extractionId ++
      " was already reviewed by " ++ row.reviewer.getD "None" ++ " at " ++
      toString (row.reviewedAt.getD 0), []⟩

def notRouted (row : FieldReview) : Exc :=
  ⟨.notRoutedError,
    "field " ++ row.field ++ " is " ++ row.reviewState.value ++
      ", not routed; only a queued field can be skipped", []⟩

def reviewerRequired : Exc :=
  ⟨.invalidCorrectionError, "a reviewer identity is required to accept or correct", []⟩

def equalsExtracted (field : String) : Exc :=
  ⟨.invalidCorrectionError,
    "the corrected value equals the extracted value for " ++ field ++
      "; use accept, so the gold set records the model as right", []⟩

/-- `SELECT * FROM field_reviews WHERE id = :id`, with or without `FOR UPDATE`. -/
def selectFieldReview (id : Uuid) : Sql (Option FieldReview) :=
  select [] fun d => d.fieldReviews.find? (·.id = id)

def getFieldReview (id : Uuid) : Db FieldReview := do
  match ← .execute (selectFieldReview id) with
  | none => .raise (fieldReviewNotFound id)
  | some row => return row

/-- `UPDATE field_reviews SET ... WHERE id = :id`; `json` is a JSONB parameter. -/
def updateFieldReviewSql (id : Uuid) (texts : List String) (json : Option Json)
    (set : FieldReview → FieldReview) : Sql Unit :=
  ⟨refusedText texts, fun _ d =>
    if json.any jsonHasNul then .error unsupportedEscape
    else .ok ((), (d.fieldReviews.filter (·.id = id)).map fun r => .updateFieldReview r (set r))⟩

def FieldReview.skip (r : FieldReview) (now : Time) : FieldReview :=
  { r with skipCount := r.skipCount + 1, lastSkippedAt := some now }

def FieldReview.accept (r : FieldReview) (now : Time) (reviewer : String) (note : Option String) :
    FieldReview :=
  { r with
    reviewState := .reviewed
    decision := some .accepted
    reviewer := some reviewer
    reviewerNote := note
    reviewedAt := some now }

def FieldReview.correct (r : FieldReview) (now : Time) (value : Json) (reviewer : String)
    (note : Option String) : FieldReview :=
  { r with
    reviewState := .reviewed
    decision := some .corrected
    correctedValue := some value
    reviewer := some reviewer
    reviewerNote := note
    reviewedAt := some now }

def recordDecision (rt : Runtime) (now : Time) (id : Uuid) (action : Action)
    (reviewer : Option String) (correctedValue : Json) (note : Option String) :
    Db FieldReview := do
  let current ← getFieldReview id
  if current.reviewState = .reviewed then .raise (alreadyReviewed current)
  else if action = .skip then
    if current.reviewState ≠ .routed then .raise (notRouted current)
    else do
      .execute (updateFieldReviewSql id [] none fun r => r.skip now)
      getFieldReview id
  else
    let reviewer := strip (reviewer.getD "")
    if reviewer = "" then .raise reviewerRequired
    else if action = .accept then do
      .execute (updateFieldReviewSql id (reviewer :: note.toList) none fun r =>
        r.accept now reviewer note)
      getFieldReview id
    else do
      let value ← .ofExcept (validateCorrection rt current.field correctedValue)
      if value.pyEq current.modelValue then .raise (equalsExtracted current.field)
      else do
        .execute (updateFieldReviewSql id (reviewer :: note.toList) (some value) fun r =>
          r.correct now value reviewer note)
        getFieldReview id

end IncidentPipeline
