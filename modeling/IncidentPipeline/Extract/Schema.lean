import IncidentPipeline.Foundation.Text
import IncidentPipeline.Foundation.Validation
import IncidentPipeline.Runtime

/-!
# The incident record schema

The closed vocabularies, the validators of single values, and the record with the
confidence object beside it: `Extract/taxonomy` and `Extract/schema` without the
texts that only the model and the reviewer read.
-/

namespace IncidentPipeline

open Python Pydantic

/-! ### Vocabularies -/

def detectionMethods : List String :=
  ["monitoring", "customer_report", "internal_manual", "operator", "ambiguous", "unknown"]

def triggerClasses : List String :=
  ["config_change", "code_deploy", "manual_command", "os_auto_update",
    "infrastructure_maintenance", "content_update", "feature_rollout", "database_failover",
    "external_service_degradation", "account_compromise"]

def mechanismClasses : List String :=
  ["accidental_data_deletion", "cascading_overload", "limit_violation", "lock_contention",
    "null_pointer_failure", "out_of_bounds_read", "race_condition", "resource_exhaustion",
    "route_deletion", "unsafe_failover", "workload_misrouting", "software_defect",
    "security_compromise", "hardware_data_loss", "consistency_anomaly", "other"]

def precisions : List String :=
  ["exact", "minute", "hour", "day", "month", "year", "approximate"]

def sourceSections : List String := ["summary", "timeline", "body", "appendix", "other"]

def actionStatuses : List String := ["done", "planned", "proposed"]

def orgKinds : List String := ["company", "oss_project", "other"]

def titleSources : List String := ["document_metadata", "synthesized"]

def schemaVersion : String := "0.8"

def maxDescriptionChars : Nat := 400

/-! ### One sentence -/

/-- The alternatives of the abbreviation pattern, in its order. -/
def abbreviations : List String :=
  ["e.g", "i.e", "etc", "vs", "cf", "ca", "approx", "fig", "inc", "ltd", "corp", "mr", "ms",
    "dr", "prof", "jan", "feb", "mar", "apr", "jun", "jul", "aug", "sep", "sept", "oct", "nov",
    "dec", "u.s", "a.m", "p.m"]

/-- The letter that a character matches when case is ignored. -/
def foldCase (c : Char) : Char :=
  if c = 'ſ' then 's' else if c = 'İ' || c = 'ı' then 'i' else c.toLower

/-- The length of the abbreviation, its final period included, that starts here. -/
def abbreviation? (cs : List Char) : Option Nat :=
  (abbreviations.map fun a => (a ++ ".").toList).findSome? fun pattern =>
    if pattern.isPrefixOf (cs.map foldCase) then some pattern.length else none

/-- The substitution that masks the final period of every abbreviation. `previous`
is whether a word character stands before, `pending` counts what is left of an
abbreviation under way. -/
def maskAbbreviations (rt : Runtime) (previous : Bool) : Nat → List Char → List Char
  | _, [] => []
  | 0, c :: rest =>
      match if rt.isWord c = previous then none else abbreviation? (c :: rest) with
      | some n => c :: maskAbbreviations rt (rt.isWord c) (n - 1) rest
      | none => c :: maskAbbreviations rt (rt.isWord c) 0 rest
  | 1, c :: rest => '\x00' :: maskAbbreviations rt (rt.isWord c) 0 rest
  | n + 2, c :: rest => c :: maskAbbreviations rt (rt.isWord c) (n + 1) rest

/-- The length of the sentence break that starts here: closing punctuation, closing
quotes or brackets, white space, and then a capital letter or digit, perhaps after
an opening quote or bracket. -/
def sentenceBreak? (cs : List Char) : Option Nat :=
  let marks := cs.takeWhile (· ∈ ['.', '!', '?'])
  let afterMarks := cs.drop marks.length
  let closers := afterMarks.takeWhile (· ∈ ['"', '\'', ')', ']'])
  let afterClosers := afterMarks.drop closers.length
  let spaces := afterClosers.takeWhile isSpace
  let opens : Option Char → Bool := fun c => c.any fun c => c.isUpper || c.isDigit
  let starts := match afterClosers.drop spaces.length with
    | c :: rest =>
        opens (some c) || (c ∈ ['"', '\'', '(', '['] && opens rest.head?)
    | [] => false
  if marks ≠ [] && spaces ≠ [] && starts then
    some (marks.length + closers.length + spaces.length)
  else none

/-- The number of breaks, skipping what is left of one that has been counted. -/
def sentenceBreaks : Nat → List Char → Nat
  | _, [] => 0
  | n + 1, _ :: rest => sentenceBreaks n rest
  | 0, c :: rest =>
      match sentenceBreak? (c :: rest) with
      | some n => 1 + sentenceBreaks (n - 1) rest
      | none => sentenceBreaks 0 rest

def sentenceCount (rt : Runtime) (text : String) : Nat :=
  let text := stripChars text.toList
  if text = [] then 0 else sentenceBreaks 0 (maskAbbreviations rt false 0 text) + 1

def oneSentence (rt : Runtime) (value : String) : Except String String :=
  let count := sentenceCount rt value
  if count ≠ 1 then
    .error ("must be exactly one sentence (got " ++ toString count ++
      "); shorten it, and put supporting evidence in `quote`, not here")
  else .ok value

/-! ### Time anchors -/

/-- The result of `parse_anchor`: a `date`, or a `datetime`. -/
inductive Anchor where
  | date (d : Date)
  | datetime (d : Datetime)
deriving DecidableEq, Repr

def isYear (text : List Char) : Bool := text.length = 4 && text.all isDigit

def isYearMonth (text : List Char) : Bool :=
  text.length = 7 && (text.take 4).all isDigit && (text.drop 4).head? == some '-' &&
    (text.drop 5).all isDigit

def isYearMonthDay (text : List Char) : Bool :=
  text.length = 10 && (text.take 4).all isDigit && (text.drop 4).head? == some '-' &&
    ((text.drop 5).take 2).all isDigit && (text.drop 7).head? == some '-' &&
    (text.drop 8).all isDigit

/-- `date(year, month, 1)`, or the text of its `ValueError`. -/
def firstOfMonth (year month : Nat) : Except String Anchor :=
  if year < 1 ∨ 9999 < year then .error ("year " ++ toString year ++ " is out of range")
  else if month < 1 ∨ 12 < month then .error "month must be in 1..12"
  else .ok (.date ⟨year, month, 1⟩)

/-- The two constructor calls stand outside the `try`, so their errors escape. -/
def parseAnchor (rt : Runtime) (value : String) : Except String (Option Anchor) :=
  let stripped := stripChars value.toList
  let text := if stripped.getLast? = some 'Z' then stripped.dropLast ++ "+00:00".toList
    else stripped
  if isYear text then (firstOfMonth (intOfDigits text) 1).map some
  else if isYearMonth text then
    (firstOfMonth (intOfDigits (text.take 4)) (intOfDigits (text.drop 5))).map some
  else if 'T' ∈ text ∨ ' ' ∈ text then
    .ok ((rt.datetimeFromisoformat (String.ofList text)).map .datetime)
  else .ok ((rt.dateFromisoformat (String.ofList text)).map .date)

inductive AnchorForm where
  | year
  | month
  | day
  | datetime
deriving DecidableEq, Repr

def AnchorForm.value : AnchorForm → String
  | .year => "year"
  | .month => "month"
  | .day => "day"
  | .datetime => "datetime"

def anchorForm (rt : Runtime) (value : String) : Except String (Option AnchorForm) :=
  let text := stripChars value.toList
  if isYear text then .ok (some .year)
  else if isYearMonth text then .ok (some .month)
  else if isYearMonthDay text then .ok (some .day)
  else do
    match ← parseAnchor rt (String.ofList text) with
    | some _ => return some .datetime
    | none => return none

/-- The check that `at` and `date` share: the text parses as an anchor. -/
def requireAnchor (rt : Runtime) (msg value : String) : Except String String := do
  match ← parseAnchor rt value with
  | none => throw msg
  | some _ => return value

def iso8601 (rt : Runtime) (value : String) : Except String String :=
  requireAnchor rt
    ("not an ISO-8601 year, year-month, date, or datetime: " ++ rt.repr value) value

def precisionMatchesAt (rt : Runtime) (data : Dict Json) (value : String) :
    Except String String := do
  match data.get? "at" with
  | some (.str «at») =>
      match ← anchorForm rt «at» with
      | none => return value
      | some form =>
          if value = "approximate" then return value
          let needsDatetime := value ∈ ["exact", "minute", "hour"]
          if needsDatetime ≠ (form = .datetime) then
            throw ("precision " ++ rt.repr value ++ " does not match `at` " ++ rt.repr «at» ++
              ": " ++
              (if needsDatetime then
                rt.repr value ++ " requires a full datetime, but `at` is " ++ form.value ++
                  "-precision"
              else
                "`at` is a full datetime, which does not match " ++ rt.repr value ++
                  "-precision"))
          if form ≠ .datetime ∧ value ≠ form.value then
            throw ("precision " ++ rt.repr value ++ " does not match `at` " ++ rt.repr «at» ++
              ", which is " ++ rt.repr form.value ++ "-precision")
          return value
  | _ => return value

def isoDate (rt : Runtime) (value : String) : Except String String :=
  requireAnchor rt ("not an ISO-8601 date: " ++ rt.repr value) value

/-! ### The record -/

/-- The custom validators by name. -/
inductive Validator where
  | oneSentence
  | iso8601
  | precisionMatchesAt
  | isoDate
deriving DecidableEq, Repr

/-- A validator of strings; `null` passes, the one other value that reaches one. -/
def onString (f : String → Except String String) : Json → Except String Json
  | .str s => (f s).map Json.str
  | v => .ok v

def validators (rt : Runtime) : Validators Validator where
  custom
    | .oneSentence, _, v => onString (oneSentence rt) v
    | .iso8601, _, v => onString (iso8601 rt) v
    | .precisionMatchesAt, data, v => onString (precisionMatchesAt rt data) v
    | .isoDate, _, v => onString (isoDate rt) v
  floatOfString := rt.floatOfString

theorem onString_preserving {f : String → Except String String}
    (h : ∀ s t, f s = .ok t → t = s) {v w : Json} (accepted : onString f v = .ok w) : w = v := by
  cases v with
  | str s =>
      simp only [onString] at accepted
      cases hf : f s with
      | error msg => simp [hf, Except.map] at accepted
      | ok t =>
          rw [hf] at accepted
          rw [h s t hf] at accepted
          exact (Except.ok.inj accepted).symm
  | _ => exact (Except.ok.inj accepted).symm

theorem oneSentence_eq_ok {rt : Runtime} {s t : String} (h : oneSentence rt s = .ok t) :
    t = s := by
  simp only [oneSentence] at h
  split at h
  · cases h
  · exact (Except.ok.inj h).symm

theorem requireAnchor_eq_ok {rt : Runtime} {msg s t : String}
    (h : requireAnchor rt msg s = .ok t) : t = s := by
  rw [requireAnchor] at h
  cases hp : parseAnchor rt s with
  | error _ => simp [hp, Bind.bind, Except.bind] at h
  | ok found =>
      rw [hp] at h
      cases found with
      | none => cases h
      | some _ => exact (Except.ok.inj h).symm

theorem precisionMatchesAt_eq_ok {rt : Runtime} {data : Dict Json} {s t : String}
    (h : precisionMatchesAt rt data s = .ok t) : t = s := by
  rw [precisionMatchesAt] at h
  split at h
  · next stated _ =>
      cases hform : anchorForm rt stated with
      | error _ => simp [hform, Bind.bind, Except.bind] at h
      | ok form =>
          cases form with
          | none => simpa [hform, Bind.bind, Except.bind, Pure.pure, Except.pure, eq_comm] using h
          | some form =>
              simp only [hform, Bind.bind, Except.bind, Pure.pure, Except.pure] at h
              grind
  · exact (Except.ok.inj h).symm

/-- Every validator checks its value and hands it on. -/
theorem validators_preserving (rt : Runtime) : Preserving (validators rt) := by
  intro f data v w accepted
  cases f with
  | oneSentence => exact onString_preserving (fun _ _ => oneSentence_eq_ok) accepted
  | iso8601 => exact onString_preserving (fun _ _ => requireAnchor_eq_ok) accepted
  | precisionMatchesAt => exact onString_preserving (fun _ _ => precisionMatchesAt_eq_ok) accepted
  | isoDate => exact onString_preserving (fun _ _ => requireAnchor_eq_ok) accepted

/-- `Field(min_length=1)`. -/
def minLength1 : Metadata Validator := { minLength := some 1 }

/-- `OneSentence = Field(min_length=1, max_length=MAX_DESCRIPTION_CHARS)`. -/
def oneSentenceField : Metadata Validator :=
  { minLength := some 1, maxLength := some maxDescriptionChars, after := [.oneSentence] }

def timeAnchor : Ty Validator :=
  .model "TimeAnchor"
    [("at", { after := [.iso8601] }, .str),
      ("precision", { after := [.precisionMatchesAt] }, .literal precisions),
      ("timezone", {}, .nullable .str),
      ("quote", {}, .nullable .str),
      ("source_section", {}, .literal sourceSections)]

def trigger : Ty Validator :=
  .model "Trigger"
    [("label", {}, .literal triggerClasses),
      ("description", oneSentenceField, .str),
      ("quote", {}, .nullable .str)]

def mechanism : Ty Validator :=
  .model "Mechanism"
    [("label", {}, .literal mechanismClasses),
      ("description", oneSentenceField, .str),
      ("quote", {}, .nullable .str)]

def contributingFactor : Ty Validator :=
  .model "ContributingFactor"
    [("text", oneSentenceField, .str),
      ("source_section", {}, .literal sourceSections)]

def action : Ty Validator :=
  .model "Action"
    [("text", minLength1, .str),
      ("status", {}, .literal actionStatuses),
      ("date", { after := [.isoDate] }, .nullable .str)]

def quantity : Ty Validator :=
  .model "Quantity"
    [("metric", minLength1, .str),
      ("value", minLength1, .str),
      ("quote", {}, .nullable .str)]

def blastRadius : Ty Validator :=
  .model "BlastRadius"
    [("qualitative", {}, .nullable .str),
      ("quantitative", {}, .list quantity)]

def affectedScope : Ty Validator :=
  .model "AffectedScope"
    [("services", {}, .list .str),
      ("regions", {}, .list .str),
      ("all_services", {}, .bool),
      ("list_is_complete", {}, .nullable .bool)]

/-- `IncidentRecord.model_fields`. -/
def modelFields : List (FieldInfo Validator) :=
  [("publisher_org", minLength1, .str),
    ("affected_org", minLength1, .str),
    ("vendor_org", {}, .nullable .str),
    ("affected_org_kind", {}, .literal orgKinds),
    ("title", minLength1, .str),
    ("title_source", {}, .literal titleSources),
    ("summary", minLength1, .str),
    ("affected", {}, affectedScope),
    ("trigger", {}, .nullable trigger),
    ("mechanism", {}, mechanism),
    ("contributing_factors", {}, .list contributingFactor),
    ("detection_method", {}, .literal detectionMethods),
    ("detection_quote", {}, .nullable .str),
    ("change_at", {}, .nullable timeAnchor),
    ("impact_start", {}, .nullable timeAnchor),
    ("detected_at", {}, .nullable timeAnchor),
    ("mitigated_at", {}, .nullable timeAnchor),
    ("resolved_at", {}, .nullable timeAnchor),
    ("time_to_detect_text", {}, .nullable .str),
    ("time_to_mitigate_text", {}, .nullable .str),
    ("blast_radius", {}, blastRadius),
    ("mitigations", {}, .list action),
    ("remediations", {}, .list action)]

def incidentRecord : Ty Validator := .model "IncidentRecord" modelFields

/-- `RECORD_FIELDS`. -/
def recordFields : List String := modelFields.map FieldInfo.name

theorem recordFields_nodup : recordFields.Nodup := by decide

/-- No field of the record itself has a custom validator. -/
theorem modelFields_plain : ∀ f ∈ modelFields, f.metadata.after = [] := by
  simp [modelFields, FieldInfo.metadata, minLength1]

/-- `Field(ge=0.0, le=1.0)`. -/
def unitInterval : Metadata Validator := { ge := some 0, le := some 1 }

/-- The confidence object, whose keys the source writes out one by one. -/
def fieldConfidence : Ty Validator :=
  .model "FieldConfidence"
    [("publisher_org", unitInterval, .float),
      ("affected_org", unitInterval, .float),
      ("vendor_org", unitInterval, .float),
      ("affected_org_kind", unitInterval, .float),
      ("title", unitInterval, .float),
      ("title_source", unitInterval, .float),
      ("summary", unitInterval, .float),
      ("affected", unitInterval, .float),
      ("trigger", unitInterval, .float),
      ("mechanism", unitInterval, .float),
      ("contributing_factors", unitInterval, .float),
      ("detection_method", unitInterval, .float),
      ("detection_quote", unitInterval, .float),
      ("change_at", unitInterval, .float),
      ("impact_start", unitInterval, .float),
      ("detected_at", unitInterval, .float),
      ("mitigated_at", unitInterval, .float),
      ("resolved_at", unitInterval, .float),
      ("time_to_detect_text", unitInterval, .float),
      ("time_to_mitigate_text", unitInterval, .float),
      ("blast_radius", unitInterval, .float),
      ("mitigations", unitInterval, .float),
      ("remediations", unitInterval, .float)]

/-- A score for each field of the record, under its name. -/
theorem fieldConfidence_fields : ∃ fields : List (FieldInfo Validator),
    fieldConfidence = .model "FieldConfidence" fields ∧
      fields.map FieldInfo.name = recordFields ∧
        ∀ f ∈ fields, f.metadata = unitInterval ∧ f.annotation = .float := by
  refine ⟨_, rfl, rfl, ?_⟩
  simp [FieldInfo.annotation, FieldInfo.metadata]

def extractionOutput : Ty Validator :=
  .model "ExtractionOutput"
    [("record", {}, incidentRecord), ("confidence", {}, fieldConfidence)]

/-- `".".join(str(part) for part in loc)`. -/
def locPath (loc : List Loc) : String :=
  ".".intercalate <| loc.map fun
    | .key name => name
    | .index i => toString i

def formatValidationError (errors : List ErrorDetail) : String :=
  "\n".intercalate <| errors.map fun e =>
    "- " ++ (if locPath e.loc = "" then "<root>" else locPath e.loc) ++ ": " ++ e.msg

end IncidentPipeline
