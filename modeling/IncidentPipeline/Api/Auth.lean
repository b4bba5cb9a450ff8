import IncidentPipeline.Foundation.Text
import IncidentPipeline.Runtime

/-!
# The gate of the review surface

`api/auth`: HTTP Basic with one pair of credentials. Unset it lets everything pass, half
set it refuses everything. The framework reads the header; what it hands over is given.
-/

namespace IncidentPipeline.Api

open Python

/-- What a handler ends in: a response, an `HTTPException`, or an exception that it does not
handle. -/
inductive Answer (α : Type) where
  | reply (body : α)
  | refused (statusCode : Nat) (detail : String)
  | failed (e : Exc)

/-- `_blank_is_unset` and `_strip_key`: a setting without content is not configured. -/
def blankIsUnset (value : String) : Option String :=
  if strip value = "" then none else some (strip value)

structure AuthSettings where
  reviewBasicAuthUser : Option String
  reviewBasicAuthPass : Option String

/-- The settings as the environment has them. -/
def AuthSettings.fromEnv (user pass : Option String) : AuthSettings :=
  ⟨user.bind blankIsUnset, pass.bind blankIsUnset⟩

structure Credentials where
  username : String
  password : String

def isAscii (s : String) : Bool := s.toList.all fun c => c.toNat < 128

/-- `secrets.compare_digest` of two strings. -/
def compareDigest (a b : String) : Except Exc Bool :=
  if isAscii a && isAscii b then .ok (a = b)
  else
    .error (foreign "TypeError" "comparing strings with non-ASCII characters is not supported")

def misconfigured : String :=
  "review auth is misconfigured: both APP_REVIEW_BASIC_AUTH_USER and " ++
    "APP_REVIEW_BASIC_AUTH_PASS must be set together"

def challenge : String := "review endpoints require authentication"

def requireReviewAuth (settings : AuthSettings) (credentials : Option Credentials) :
    Answer Unit :=
  match settings.reviewBasicAuthUser, settings.reviewBasicAuthPass with
  | none, none => .reply ()
  | none, some _ => .refused 500 misconfigured
  | some _, none => .refused 500 misconfigured
  | some user, some pass =>
      match credentials with
      | none => .refused 401 challenge
      | some given =>
          match compareDigest given.username user, compareDigest given.password pass with
          | .error e, _ => .failed e
          | .ok _, .error e => .failed e
          | .ok userOk, .ok passOk =>
              if userOk && passOk then .reply () else .refused 401 challenge

/-- Whether a request gets past the gate. -/
def passes (settings : AuthSettings) (credentials : Option Credentials) : Bool :=
  match requireReviewAuth settings credentials with
  | .reply _ => true
  | _ => false

/-- The gate opens if it is not engaged, and to the configured pair of credentials. -/
theorem passes_iff (settings : AuthSettings) (credentials : Option Credentials) :
    passes settings credentials = true ↔
      settings = ⟨none, none⟩ ∨
      ∃ given, credentials = some given ∧ isAscii given.username = true ∧
        isAscii given.password = true ∧ settings = ⟨some given.username, some given.password⟩ := by
  obtain ⟨user, pass⟩ := settings
  rw [passes, requireReviewAuth]
  cases user with
  | none => cases pass <;> simp
  | some user =>
      cases pass with
      | none => simp
      | some pass =>
          cases credentials with
          | none => simp
          | some given =>
              unfold compareDigest
              grind

end IncidentPipeline.Api
