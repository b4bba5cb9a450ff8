import IncidentPipeline.Api.Review
import IncidentPipeline.Review.Forms

/-!
# The review page

`api/review_ui`: the pages and the form post. A page stands for the context that its
template is rendered with; the definition of the field, the candidate passages and the
warnings on quotes, which it shows beside the form, are left out.
-/

namespace IncidentPipeline.Api

open Python Transactions

def correctionRoot : String := "v"

structure Page where
  item : Option ReviewItem
  queueSize : Nat
  floor : ℚ
  budget : Option Nat
  reviewer : String
  error : Option String
  form : Option Bound
  statusCode : Nat

/-- What a handler of the page answers with. The redirect leads to the next field; it may set
the cookie with the reviewer's name. -/
inductive UiResponse where
  | page (page : Page)
  | redirect (cookie : Option String)

/-- The form shows what was submitted, else the extracted value. -/
def itemForm (rt : Runtime) (correction : Option Json) (item : ReviewItem) : Except Exc Bound := do
  let spec ← formSpec rt item.review.field
  return bind rt spec correctionRoot (correction.getD item.review.modelValue)

/-- `_render`, over a connection of its own. `correction` is what was submitted, if anything
was. -/
def render (cfg : Settings) (env : RequestEnv) (cookie : Option String) (item : Option ReviewItem)
    (error : Option String) (correction : Option Json) (statusCode : Nat) (d : Database) :
    Answer UiResponse :=
  let page : Except Exc Page := do
    let size ← reads env queueSize d
    let form ← item.mapM (itemForm env.rt correction)
    return ⟨item, size, cfg.reviewConfidenceFloor, cfg.reviewBudget, cookie.getD "", error, form,
      statusCode⟩
  match page with
  | .ok page => .reply (.page page)
  | .error e => .failed e

def nextItem (collation : Collation) : Db (Option ReviewItem) := do
  match ← nextForReview collation with
  | none => return none
  | some queued =>
      let item ← loadForReview queued.id
      return some item

def nextField (cfg : Settings) (env : RequestEnv) (cookie : Option String) (d : Database) :
    Answer UiResponse :=
  match reads env (nextItem cfg.collation) d with
  | .ok item => render cfg env cookie item none none 200 d
  | .error e => .failed e

def missingField : String := "That field does not exist."

def oneField (cfg : Settings) (env : RequestEnv) (cookie : Option String) (id : Uuid)
    (d : Database) : Answer UiResponse :=
  match reads env (loadForReview id) d with
  | .ok item => render cfg env cookie (some item) none none 200 d
  | .error e =>
      if e.cls = .fieldReviewNotFoundError then
        render cfg env cookie none (some missingField) none 404 d
      else .failed e

/-! ### The form post -/

/-- `data.get(name, "")`. -/
def submitted (data : Dict String) (name : String) : String := (data.get? name).getD ""

/-- The actions that the form posts. -/
def actionOf : String → Option Action
  | "accept" => some .accept
  | "correct" => some .correct
  | "skip" => some .skip
  | _ => none

/-- `note.strip() or None`. -/
def submittedNote (data : Dict String) : Option String := blankIsUnset (submitted data "note")

/-- The value in the form, which only a correction reads. -/
def submittedValue (rt : Runtime) (action : Action) (item : ReviewItem) (data : Dict String) :
    Except Exc (Option Json) :=
  if action = .correct then do
    let spec ← formSpec rt item.review.field
    return some (parse spec correctionRoot data)
  else .ok none

/-- How the transaction of a post ends when it ends normally. -/
inductive Verdict where
  | missing
  | rejected (item : ReviewItem) (error : String) (correction : Option Json) (statusCode : Nat)
  | recorded

def decideTransaction (env : RequestEnv) (id : Uuid) (action : Action) (data : Dict String) :
    Db Verdict := do
  match ← (loadForReview id).attempt with
  | .error e => if e.cls = .fieldReviewNotFoundError then return .missing else .raise e
  | .ok item =>
      let value ← .ofExcept (submittedValue env.rt action item data)
      match ← (recordDecision env.rt env.now id action (some (submitted data "reviewer"))
          (value.getD .null) (submittedNote data)).attempt with
      | .ok _ => return .recorded
      | .error e =>
          match e.cls with
          | .alreadyReviewedError => return .rejected item e.message none 409
          | .notRoutedError => return .rejected item e.message none 409
          | .invalidCorrectionError => return .rejected item e.message value 422
          | _ => .raise e

/-- The redirect to the next field. A name is written into a header. -/
def redirectNext (env : RequestEnv) (reviewer : Option String) : Answer UiResponse :=
  match reviewer.bind env.cookieError with
  | some e => .failed e
  | none => .reply (.redirect reviewer)

theorem redirectNext_ne_page {env : RequestEnv} {page : Page} (reviewer : Option String) :
    redirectNext env reviewer ≠ .reply (.page page) := by
  rw [redirectNext]
  cases reviewer.bind env.cookieError <;> simp

/-- `_decide`. The pages of a rejected post are rendered before its transaction ends, and see
the tables as they were. -/
def decideField (cfg : Settings) (env : RequestEnv) (cookie : Option String) (id : Uuid)
    (data : Dict String) (d : Database) : Answer UiResponse × Database :=
  match actionOf (submitted data "action") with
  | none =>
      (render cfg env cookie none
        (some ("Unknown action " ++ env.rt.repr (submitted data "action") ++ ".")) none 422 d, d)
  | some action =>
      match (decideTransaction env id action data).transact postgres env.context d with
      | (.error e, d') => (.failed e, d')
      | (.ok .missing, d') => (render cfg env cookie none (some missingField) none 404 d, d')
      | (.ok (.rejected item error correction statusCode), d') =>
          (render cfg env cookie (some item) (some error) correction statusCode d, d')
      | (.ok .recorded, d') =>
          (redirectNext env (blankIsUnset (submitted data "reviewer")), d')

end IncidentPipeline.Api
