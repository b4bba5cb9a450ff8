import IncidentPipeline.Foundation.Json

/-!
# Exceptions and the Python runtime

The exceptions that stages raise, with what their handlers look at: the class,
the text and, for extraction errors, the attempts made before. `Runtime` holds the
parts of Python's standard library that the code calls and that are too large to
spell out here: the Unicode tables, `repr`, the readers of numbers and dates, and
the JSON decoder.
-/

namespace IncidentPipeline

open Python

/-- One round of the extraction loop, as the attempt log keeps it. -/
structure Attempt where
  number : Nat
  rawOutput : String
  ok : Bool
  validationError : Option String
  usage : Dict Int
  model : String
deriving DecidableEq, Repr

/-- The exception classes that the code raises or tells apart. -/
inductive ExcClass where
  | transientIngestError
  | permanentIngestError
  | emptyExtractionError
  | transientExtractionError
  | permanentExtractionError
  | schemaValidationExhaustedError
  | permanentJobError
  | documentNotFoundError
  | fieldReviewNotFoundError
  | alreadyReviewedError
  | notRoutedError
  | invalidCorrectionError
  | valueError
  | keyError
  | noResultFound
  | databaseError
  | other (name : String)
deriving DecidableEq, Repr

namespace ExcClass

/-- `isinstance(exc, PermanentJobError)`. -/
def isPermanentJobError : ExcClass → Bool
  | permanentIngestError | emptyExtractionError | permanentExtractionError
  | schemaValidationExhaustedError | permanentJobError => true
  | _ => false

/-- `isinstance(exc, TransientJobError)`. -/
def isTransientJobError : ExcClass → Bool
  | transientIngestError | transientExtractionError => true
  | _ => false

/-- `isinstance(exc, ExtractionError)`. -/
def isExtractionError : ExcClass → Bool
  | transientExtractionError | permanentExtractionError | schemaValidationExhaustedError => true
  | _ => false

/-- `type(exc).__name__`. -/
def name : ExcClass → String
  | transientIngestError => "TransientIngestError"
  | permanentIngestError => "PermanentIngestError"
  | emptyExtractionError => "EmptyExtractionError"
  | transientExtractionError => "TransientExtractionError"
  | permanentExtractionError => "PermanentExtractionError"
  | schemaValidationExhaustedError => "SchemaValidationExhaustedError"
  | permanentJobError => "PermanentJobError"
  | documentNotFoundError => "DocumentNotFoundError"
  | fieldReviewNotFoundError => "FieldReviewNotFoundError"
  | alreadyReviewedError => "AlreadyReviewedError"
  | notRoutedError => "NotRoutedError"
  | invalidCorrectionError => "InvalidCorrectionError"
  | valueError => "ValueError"
  | keyError => "KeyError"
  | noResultFound => "NoResultFound"
  | databaseError => "DBAPIError"
  | other name => name

end ExcClass

/-- A raised exception; `message` is its `str`. -/
structure Exc where
  cls : ExcClass
  message : String
  attempts : List Attempt := []
deriving DecidableEq, Repr

/-- An exception of a class that the code does not know. -/
def foreign (name message : String) : Exc := ⟨.other name, message, []⟩

@[simp] theorem except_ok_then {ε α β : Type} (a : α) (f : α → Except ε β) :
    (Except.ok a >>= f) = f a := rfl

@[simp] theorem except_error_then {ε α β : Type} (e : ε) (f : α → Except ε β) :
    (Except.error e >>= f) = .error e := rfl

/-- A computation that succeeds has a successful first part. -/
theorem except_bind_ok {ε α β : Type} {x : Except ε α} {f : α → Except ε β} {b : β} :
    (x >>= f) = .ok b ↔ ∃ a, x = .ok a ∧ f a = .ok b := by
  cases x with
  | error e => exact ⟨nofun, fun ⟨_, h, _⟩ => nomatch h⟩
  | ok a => exact ⟨fun h => ⟨a, rfl, h⟩, fun ⟨_, h, later⟩ => Except.ok.inj h ▸ later⟩

theorem except_mapM_ok {ε α β : Type} {f : α → Except ε β} {xs : List α} {ys : List β} :
    xs.mapM f = .ok ys ↔ List.Forall₂ (fun x y => f x = .ok y) xs ys := by
  induction xs generalizing ys with
  | nil =>
      rw [List.forall₂_nil_left_iff, List.mapM_nil]
      exact ⟨fun h => (Except.ok.inj h).symm, fun h => congrArg _ h.symm⟩
  | cons x rest ih =>
      rw [List.mapM_cons, List.forall₂_cons_left_iff, except_bind_ok]
      constructor
      · rintro ⟨y, first, later⟩
        obtain ⟨zs, rest, done⟩ := except_bind_ok.mp later
        exact ⟨y, zs, first, ih.mp rest, (Except.ok.inj done).symm⟩
      · rintro ⟨y, zs, first, rest, rfl⟩
        exact ⟨y, first, except_bind_ok.mpr ⟨zs, ih.mpr rest, rfl⟩⟩

/-- A calendar date as `datetime.date` holds it. -/
structure Date where
  year : Nat
  month : Nat
  day : Nat
deriving DecidableEq, Repr

/-- A `datetime.datetime`: microseconds since midnight, and the UTC offset in
microseconds of an aware one. -/
structure Datetime where
  date : Date
  micros : Nat
  utcoffset : Option Int
deriving DecidableEq, Repr

/-- What `json.loads` does on a text: it returns, raises `JSONDecodeError`, or raises
something else (an over-long integer literal, too deep a nesting). -/
inductive Loaded where
  | value (v : Json)
  | decodeError (msg : String) (pos : Nat)
  | raised (name message : String)

/-- The standard library functions taken as given. `isWord` is what `\w` matches;
`str` is asked only for values that are not strings; the readers return nothing where
Python raises `ValueError`. -/
structure Runtime where
  isWord : Char → Bool
  repr : String → String
  str : Json → String
  floatOfString : String → Option (ℚ ⊕ NonFinite)
  dateFromisoformat : String → Option Date
  datetimeFromisoformat : String → Option Datetime
  loads : String → Loaded

/-- `str(v)`. -/
def Runtime.strOf (rt : Runtime) : Json → String
  | .str s => s
  | v => rt.str v

/-- A runtime to evaluate examples in: ASCII words, no dates and no JSON. -/
def Runtime.ascii : Runtime where
  isWord c := c.isAlphanum || c = '_'
  repr s := "'" ++ s ++ "'"
  str _ := ""
  floatOfString _ := none
  dateFromisoformat _ := none
  datetimeFromisoformat _ := none
  loads _ := .decodeError "Expecting value" 0

end IncidentPipeline
