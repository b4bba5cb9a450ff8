import IncidentPipeline.Extract.Schema
import IncidentPipeline.Foundation.Calendar

/-!
# Time anchors

Two classifiers decide on an anchor. `parse_anchor` accepts what the library reads;
`anchor_form` goes by three patterns and takes everything else that parses for a
datetime. They disagree on the dates that the library reads beyond the pattern of a full
date, on texts of the pattern that are no dates in ASCII digits, and on years and months out
of range, for which `parse_anchor` raises.
-/

namespace IncidentPipeline

open Python Pydantic

/-! ### Anchors -/

/-- A validated `TimeAnchor`. -/
structure TimeAnchor where
  «at» : String
  precision : String
  timezone : Option String
  quote : Option String
  sourceSection : String
deriving DecidableEq, Repr

def nullableText : Option String → Json
  | none => .null
  | some s => .str s

def TimeAnchor.toJson (a : TimeAnchor) : Json :=
  .obj [("at", .str a.«at»), ("precision", .str a.precision),
    ("timezone", nullableText a.timezone), ("quote", nullableText a.quote),
    ("source_section", .str a.sourceSection)]

/-- The anchor passes validation. -/
def TimeAnchor.Accepted (rt : Runtime) (a : TimeAnchor) : Prop :=
  timeAnchor.validate (validators rt) a.toJson = .ok a.toJson

/-- `date.fromisoformat` of CPython. -/
def fromisoformat (text : String) : Option Date :=
  (readIsoDate text.toList).map fun d => ⟨d.1, d.2.1, d.2.2⟩

/-- A runtime whose dates are read as CPython reads them. -/
def Runtime.withDates (rt : Runtime) : Runtime := { rt with dateFromisoformat := fromisoformat }

/-! ### Acceptance -/

section Acceptance

variable {rt : Runtime} {a : TimeAnchor}

theorem requireAnchor_iff {msg value : String} :
    requireAnchor rt msg value = .ok value ↔
      ∃ parsed, parseAnchor rt value = .ok (some parsed) := by
  rw [requireAnchor]
  cases parseAnchor rt value with
  | error e => simp [Bind.bind, Except.bind]
  | ok found =>
      cases found <;> simp [Bind.bind, Except.bind, Pure.pure, Except.pure, throw, throwThe,
        MonadExceptOf.throw]

theorem validate_nullableText {run : Validators Validator} {v w : Json} :
    (Ty.nullable .str : Ty Validator).validate run v = .ok w ↔
      ∃ o, v = nullableText o ∧ w = nullableText o := by
  constructor
  · intro accepted
    cases v with
    | null => exact ⟨none, rfl, (Except.ok.inj accepted).symm⟩
    | str s => exact ⟨some s, rfl, (Except.ok.inj accepted).symm⟩
    | _ => simp [Ty.validate, fail] at accepted
  · rintro ⟨o, rfl, rfl⟩
    cases o <;> rfl

theorem onString_eq_ok {f : String → Except String String} (keeps : ∀ s t, f s = .ok t → t = s)
    {s : String} {w : Json} : onString f (.str s) = .ok w ↔ w = .str s ∧ f s = .ok s := by
  show (f s).map Json.str = .ok w ↔ _
  cases result : f s with
  | error e => simp [Except.map]
  | ok t =>
      obtain rfl := keeps s t result
      simp [Except.map, eq_comm]

theorem iso8601_eq_ok {data : Dict Json} {s : String} {w : Json} :
    (validators rt).custom .iso8601 data (.str s) = .ok w ↔
      w = .str s ∧ ∃ parsed, parseAnchor rt s = .ok (some parsed) :=
  (onString_eq_ok fun _ _ => requireAnchor_eq_ok).trans (and_congr_right fun _ => requireAnchor_iff)

theorem precision_eq_ok {data : Dict Json} {s : String} {w : Json} :
    (validators rt).custom .precisionMatchesAt data (.str s) = .ok w ↔
      w = .str s ∧ precisionMatchesAt rt data s = .ok s :=
  onString_eq_ok fun _ _ => precisionMatchesAt_eq_ok

/-- What validation asks of the two fields with validators. -/
structure TimeAnchor.Checked (rt : Runtime) (a : TimeAnchor) : Prop where
  iso8601 : ∃ parsed, parseAnchor rt a.«at» = .ok (some parsed)
  precision : a.precision ∈ precisions
  matches_ : precisionMatchesAt rt [("at", .str a.«at»)] a.precision = .ok a.precision
  sourceSection : a.sourceSection ∈ sourceSections

/-- What an anchor is read from. -/
structure TimeAnchor.ReadFrom (a : TimeAnchor) (members : Dict Json) : Prop where
  «at» : members.get? "at" = some (.str a.«at»)
  precision : members.get? "precision" = some (.str a.precision)
  timezone : members.get? "timezone" = some (nullableText a.timezone)
  quote : members.get? "quote" = some (nullableText a.quote)
  sourceSection : members.get? "source_section" = some (.str a.sourceSection)
  closed : ∀ key ∈ Dict.keys members,
    key ∈ ["at", "precision", "timezone", "quote", "source_section"]

/-- Validation of an object: the anchor that comes out, and what was checked. -/
theorem timeAnchor_eq_ok {members : Dict Json} {out : Json} :
    timeAnchor.validate (validators rt) (.obj members) = .ok out ↔
      ∃ a : TimeAnchor, out = a.toJson ∧ a.ReadFrom members ∧ a.Checked rt := by
  rw [timeAnchor, validate_model_eq_ok]
  simp only [validateFields_cons_eq_ok, FieldInfo.result_eq_ok, FieldInfo.validate_after,
    validate_str_eq_ok, validate_literal_eq_ok, validate_nullableText, runValidators_single,
    runValidators_nil, FieldInfo.name]
  constructor
  · rintro ⟨⟨_, ⟨_, ⟨_, foundAt, _, ⟨s, rfl, rfl⟩, parses⟩, _, ⟨_, foundPrecision, _,
      ⟨precision, known, rfl, rfl⟩, agrees⟩, _, ⟨_, foundTimezone, _, ⟨timezone, rfl, rfl⟩, rfl⟩,
      _, ⟨_, foundQuote, _, ⟨quote, rfl, rfl⟩, rfl⟩, _, ⟨_, foundSection, _,
      ⟨section_, listed, rfl, rfl⟩, rfl⟩, rest⟩, rfl⟩, closed⟩
    obtain ⟨rfl, iso8601⟩ := iso8601_eq_ok.mp parses
    obtain ⟨rfl, matches_⟩ := precision_eq_ok.mp agrees
    cases rest
    exact ⟨⟨s, precision, timezone, quote, section_⟩, rfl,
      ⟨foundAt, foundPrecision, foundTimezone, foundQuote, foundSection, closed⟩,
      ⟨iso8601, known, matches_, listed⟩⟩
  · rintro ⟨a, rfl, found, checked⟩
    refine ⟨⟨_, ⟨_, ⟨_, found.«at», _, ⟨_, rfl, rfl⟩, iso8601_eq_ok.mpr ⟨rfl, checked.iso8601⟩⟩,
      _, ⟨_, found.precision, _, ⟨_, checked.precision, rfl, rfl⟩,
        precision_eq_ok.mpr ⟨rfl, checked.matches_⟩⟩,
      _, ⟨_, found.timezone, _, ⟨_, rfl, rfl⟩, rfl⟩, _, ⟨_, found.quote, _, ⟨_, rfl, rfl⟩, rfl⟩,
      _, ⟨_, found.sourceSection, _, ⟨_, checked.sourceSection, rfl, rfl⟩, rfl⟩, rfl⟩, rfl⟩,
      found.closed⟩

theorem TimeAnchor.readFrom_toJson (a : TimeAnchor) : a.ReadFrom
    [("at", .str a.«at»), ("precision", .str a.precision), ("timezone", nullableText a.timezone),
      ("quote", nullableText a.quote), ("source_section", .str a.sourceSection)] :=
  ⟨rfl, rfl, rfl, rfl, rfl, fun _ member => member⟩

theorem nullableText_injective {o o' : Option String} (same : nullableText o = nullableText o') :
    o = o' := by
  cases o <;> cases o' <;> simp_all [nullableText]

theorem TimeAnchor.toJson_injective {a b : TimeAnchor} (same : a.toJson = b.toJson) : a = b := by
  cases a
  cases b
  simp only [TimeAnchor.toJson, Json.obj.injEq, List.cons.injEq, Prod.mk.injEq, Json.str.injEq,
    true_and, and_true] at same
  obtain ⟨rfl, rfl, timezone, quote, rfl⟩ := same
  rw [nullableText_injective timezone, nullableText_injective quote]

theorem TimeAnchor.accepted_iff : a.Accepted rt ↔ a.Checked rt := by
  rw [TimeAnchor.Accepted]
  constructor
  · intro accepted
    obtain ⟨b, same, _, checked⟩ := timeAnchor_eq_ok.mp accepted
    exact TimeAnchor.toJson_injective same ▸ checked
  · exact fun checked => timeAnchor_eq_ok.mpr ⟨a, rfl, a.readFrom_toJson, checked⟩

/-- Whatever validation accepts is an anchor that it accepts. -/
theorem timeAnchor_accepted {data out : Json}
    (h : timeAnchor.validate (validators rt) data = .ok out) :
    ∃ a : TimeAnchor, out = a.toJson ∧ a.Accepted rt := by
  cases data with
  | obj members =>
      obtain ⟨a, same, _, checked⟩ := timeAnchor_eq_ok.mp h
      exact ⟨a, same, TimeAnchor.accepted_iff.mpr checked⟩
  | _ => simp [timeAnchor, Ty.validate, fail] at h

end Acceptance

/-! ### The two classifiers -/

/-- The pattern of a form. A datetime has none: it is what is left. -/
def AnchorForm.«matches» : AnchorForm → List Char → Bool
  | .year => isYear
  | .month => isYearMonth
  | .day => isYearMonthDay
  | .datetime => fun _ => false

def formOf (text : List Char) : AnchorForm :=
  if isYear text then .year
  else if isYearMonth text then .month
  else if isYearMonthDay text then .day
  else .datetime

/-- The text is of this form and names a date. -/
def AnchorForm.namesDate (form : AnchorForm) (text : List Char) : Bool :=
  form.«matches» text && match form with
    | .year => isCalendarDate (intOfDigits text) 1 1
    | .month => isCalendarDate (intOfDigits (text.take 4)) (intOfDigits (text.drop 5)) 1
    | .day => isCalendarDate (intOfDigits (text.take 4)) (intOfDigits ((text.drop 5).take 2))
        (intOfDigits (text.drop 8))
    | .datetime => true

/-- The precisions that a form allows. -/
def AnchorForm.Allows (form : AnchorForm) (precision : String) : Prop :=
  precision = "approximate" ∨
    (if form = .datetime then precision ∈ ["exact", "minute", "hour"] else precision = form.value)

theorem isYear_length {text : List Char} (h : isYear text = true) :
    text.length = 4 ∧ ∀ c ∈ text, isDigit c = true := by
  simpa [isYear] using h

theorem isYearMonth_shape {text : List Char} (h : isYearMonth text = true) :
    ∃ a b c d e f, text = [a, b, c, d, '-', e, f] ∧
      ∀ x ∈ [a, b, c, d, e, f], isDigit x = true := by
  match text with
  | [a, b, c, d, hyphen, e, f] =>
      simp only [isYearMonth] at h
      refine ⟨a, b, c, d, e, f, ?_, ?_⟩
      · simp_all
      · simp_all
  | [] | [_] | [_, _] | [_, _, _] | [_, _, _, _] | [_, _, _, _, _] | [_, _, _, _, _, _]
  | _ :: _ :: _ :: _ :: _ :: _ :: _ :: _ :: _ => simp [isYearMonth] at h

theorem isYearMonthDay_shape {text : List Char} (h : isYearMonthDay text = true) :
    ∃ a b c d e f g i, text = [a, b, c, d, '-', e, f, '-', g, i] ∧
      ∀ x ∈ [a, b, c, d, e, f, g, i], isDigit x = true := by
  match text with
  | [a, b, c, d, hyphen, e, f, hyphen', g, i] =>
      simp only [isYearMonthDay] at h
      refine ⟨a, b, c, d, e, f, g, i, ?_, ?_⟩
      · simp_all
      · simp_all
  | [] | [_] | [_, _] | [_, _, _] | [_, _, _, _] | [_, _, _, _, _] | [_, _, _, _, _, _]
  | [_, _, _, _, _, _, _] | [_, _, _, _, _, _, _, _] | [_, _, _, _, _, _, _, _, _]
  | _ :: _ :: _ :: _ :: _ :: _ :: _ :: _ :: _ :: _ :: _ :: _ => simp [isYearMonthDay] at h

section Classifiers

variable {rt : Runtime}

/-- The patterns exclude each other, by length. -/
theorem formOf_of_matches {form : AnchorForm} {text : List Char}
    (h : form.«matches» text = true) : formOf text = form := by
  cases form with
  | year => exact if_pos h
  | month =>
      obtain ⟨a, b, c, d, e, f, rfl, _⟩ := isYearMonth_shape h
      rw [formOf, if_neg (by simp [isYear])]
      exact if_pos h
  | day =>
      obtain ⟨a, b, c, d, e, f, g, i, rfl, _⟩ := isYearMonthDay_shape h
      rw [formOf, if_neg (by simp [isYear]), if_neg (by simp [isYearMonth])]
      exact if_pos h
  | datetime => cases h

theorem matches_formOf {text : List Char} (h : formOf text ≠ .datetime) :
    (formOf text).«matches» text = true := by
  unfold formOf at h ⊢
  split
  · assumption
  · split
    · assumption
    · split
      · assumption
      · simp_all

/-- No pattern has a letter, a blank or a plus. -/
theorem isFormChar_of_matches {form : AnchorForm} {text : List Char}
    (h : form.«matches» text = true) : ∀ c ∈ text, isDigit c = true ∨ c = '-' := by
  cases form with
  | year => exact fun c member => .inl ((isYear_length h).2 c member)
  | month =>
      obtain ⟨a, b, c, d, e, f, rfl, digits⟩ := isYearMonth_shape h
      simp_all
  | day =>
      obtain ⟨a, b, c, d, e, f, g, i, rfl, digits⟩ := isYearMonthDay_shape h
      simp_all
  | datetime => cases h

/-- The text that `parse_anchor` reads: a final `Z` is written out. -/
def zuluText (text : List Char) : List Char :=
  if text.getLast? = some 'Z' then text.dropLast ++ "+00:00".toList else text

theorem plus_mem_zuluText {text : List Char} (zulu : text.getLast? = some 'Z') :
    '+' ∈ zuluText text := by
  rw [zuluText, if_pos zulu]
  simp

theorem zuluText_of_not_mem {text : List Char} (missing : 'Z' ∉ text) : zuluText text = text := by
  apply if_neg
  intro zulu
  exact missing (List.mem_of_getLast? zulu)

theorem not_mem_of_matches (form : AnchorForm) {text : List Char}
    (h : form.«matches» text = true) {c : Char} (other : isDigit c = false) (hyphen : c ≠ '-') :
    c ∉ text := by
  intro member
  obtain digit | same := isFormChar_of_matches h c member
  · simp_all
  · exact hyphen same

theorem parseAnchor_eq (rt : Runtime) (value : String) : parseAnchor rt value =
    (let text := zuluText (stripChars value.toList)
    if isYear text then (firstOfMonth (intOfDigits text) 1).map some
    else if isYearMonth text then
      (firstOfMonth (intOfDigits (text.take 4)) (intOfDigits (text.drop 5))).map some
    else if 'T' ∈ text ∨ ' ' ∈ text then
      .ok ((rt.datetimeFromisoformat (String.ofList text)).map .datetime)
    else .ok ((rt.dateFromisoformat (String.ofList text)).map .date)) := rfl

/-- A year or a month is read by the constructor of dates. -/
theorem parseAnchor_year {value : String} (form : isYear (stripChars value.toList) = true) :
    parseAnchor rt value = (firstOfMonth (intOfDigits (stripChars value.toList)) 1).map some := by
  have same : zuluText (stripChars value.toList) = _ :=
    zuluText_of_not_mem (not_mem_of_matches .year form (by decide) (by decide))
  simp [parseAnchor_eq, same, form]

theorem parseAnchor_month {value : String} (form : isYearMonth (stripChars value.toList) = true) :
    parseAnchor rt value = (firstOfMonth (intOfDigits ((stripChars value.toList).take 4))
      (intOfDigits ((stripChars value.toList).drop 5))).map some := by
  have same : zuluText (stripChars value.toList) = _ :=
    zuluText_of_not_mem (not_mem_of_matches .month form (by decide) (by decide))
  have other : isYear (stripChars value.toList) = false := by
    obtain ⟨a, b, c, d, e, f, shape, _⟩ := isYearMonth_shape form
    simp [shape, isYear]
  simp [parseAnchor_eq, same, form, other]

/-- A full date goes to the library. -/
theorem parseAnchor_day {value : String}
    (form : isYearMonthDay (stripChars value.toList) = true) :
    parseAnchor rt value =
      .ok ((rt.dateFromisoformat (strip value)).map .date) := by
  have same : zuluText (stripChars value.toList) = _ :=
    zuluText_of_not_mem (not_mem_of_matches .day form (by decide) (by decide))
  have noT : 'T' ∉ stripChars value.toList :=
    not_mem_of_matches .day form (by decide) (by decide)
  have noBlank : ' ' ∉ stripChars value.toList :=
    not_mem_of_matches .day form (by decide) (by decide)
  have other : isYear (stripChars value.toList) = false ∧
      isYearMonth (stripChars value.toList) = false := by
    obtain ⟨a, b, c, d, e, f, g, i, shape, _⟩ := isYearMonthDay_shape form
    simp [shape, isYear, isYearMonth]
  simp [parseAnchor_eq, same, other, noT, noBlank, strip]

theorem mem_of_mem_zuluText {text : List Char} {c : Char} (member : c ∈ zuluText text)
    (other : c ∉ "+00:00".toList) : c ∈ text := by
  rw [zuluText] at member
  split at member
  · obtain front | back := List.mem_append.mp member
    · exact List.mem_of_mem_dropLast front
    · exact absurd back other
  · exact member

/-- Writing out a final `Z` gives no text of the first two forms. -/
theorem zuluText_unmatched {text : List Char} (form : formOf text = .datetime) :
    isYear (zuluText text) = false ∧ isYearMonth (zuluText text) = false := by
  by_cases zulu : text.getLast? = some 'Z'
  · have plus := plus_mem_zuluText zulu
    constructor
    · by_contra shape
      exact not_mem_of_matches .year (Bool.eq_true_of_not_eq_false shape) rfl (by decide) plus
    · by_contra shape
      exact not_mem_of_matches .month (Bool.eq_true_of_not_eq_false shape) rfl (by decide) plus
  · rw [zuluText, if_neg zulu]
    constructor
    · by_contra shape
      simp_all [formOf]
    · by_contra shape
      have month : formOf text = .month :=
        formOf_of_matches (Bool.eq_true_of_not_eq_false shape)
      simp_all

/-- The text goes to the reader of dates, and goes there as it is. -/
structure SentAsDate (text : List Char) : Prop where
  noT : 'T' ∉ text
  noBlank : ' ' ∉ text
  noZulu : text.getLast? ≠ some 'Z'

theorem fromisoformat_zulu {text : List Char} (zulu : text.getLast? = some 'Z') :
    fromisoformat (String.ofList (zuluText text)) = none := by
  have written : zuluText text = text.dropLast ++ ['+', '0', '0', ':', '0', '0'] := if_pos zulu
  rw [fromisoformat, String.toList_ofList, written, readIsoDate_utc]
  rfl

/-- What is left parses for a date exactly if the library gets it to read and reads it. -/
theorem parseAnchor_other (rt : Runtime) {value : String}
    (form : formOf (stripChars value.toList) = .datetime) :
    ∃ parsed, parseAnchor rt.withDates value = .ok parsed ∧
      (∀ d, parsed = some (.date d) ↔
        SentAsDate (stripChars value.toList) ∧ fromisoformat (strip value) = some d) ∧
      ∀ d, parsed = some (.datetime d) →
        'T' ∈ stripChars value.toList ∨ ' ' ∈ stripChars value.toList := by
  have patterns := zuluText_unmatched form
  rw [parseAnchor_eq, strip]
  generalize stripChars value.toList = text at form patterns ⊢
  simp only [patterns.1, patterns.2, Bool.false_eq_true, if_false]
  by_cases separated : 'T' ∈ zuluText text ∨ ' ' ∈ zuluText text
  · rw [if_pos separated]
    have inside : 'T' ∈ text ∨ ' ' ∈ text :=
      separated.imp (fun member => mem_of_mem_zuluText member (by decide))
        fun member => mem_of_mem_zuluText member (by decide)
    refine ⟨_, rfl, ?_, fun _ _ => inside⟩
    intro d
    have elsewhere : ¬ SentAsDate text := fun sent => inside.elim sent.noT sent.noBlank
    simp [elsewhere]
  · rw [if_neg separated]
    refine ⟨_, rfl, ?_, by simp⟩
    intro d
    by_cases zulu : text.getLast? = some 'Z'
    · have changed : ¬ SentAsDate text := fun sent => sent.noZulu zulu
      simp [Runtime.withDates, fromisoformat_zulu zulu, changed]
    · rw [zuluText, if_neg zulu] at separated ⊢
      obtain ⟨noT, noBlank⟩ := not_or.mp separated
      simp [Runtime.withDates, SentAsDate.mk noT noBlank zulu]

/-- A full date is read if its digits are the ASCII ones and it is in the calendar. -/
theorem fromisoformat_day {value : String}
    (form : isYearMonthDay (stripChars value.toList) = true) :
    (∃ d, fromisoformat (strip value) = some d) ↔
      AnchorForm.day.namesDate (stripChars value.toList) = true ∧
        ∀ c ∈ stripChars value.toList, c.isDigit = true ∨ c = '-' := by
  obtain ⟨a, b, c, d, e, f, g, i, shape, digits⟩ := isYearMonthDay_shape form
  have calendar : e ≠ 'W' := by
    intro week
    have digit := digits e (by simp)
    rw [week] at digit
    exact absurd digit (by decide)
  have hyphen : Char.isDigit '-' = false := rfl
  have dash {c : Char} (digit : isDigit c = true) : c ≠ '-' := by
    rintro rfl
    exact absurd digit (by decide)
  rw [fromisoformat, strip, String.toList_ofList, AnchorForm.namesDate, AnchorForm.«matches», form,
    shape, readIsoDate_day calendar]
  have dashes := fun x member => dash (digits x member)
  simp only [List.forall_mem_cons] at dashes
  split
  · simp_all
  · next unread =>
      simp only [List.all_cons, List.all_nil, Bool.and_true, Bool.and_eq_true, not_and,
        Bool.not_eq_true] at unread
      simp_all
      grind

/-- The text of a form that names a date parses, save for a full date whose digits are not
all ASCII. -/
theorem parses_iff_of_namesDate {form : AnchorForm} {value : String}
    (named : form.namesDate (stripChars value.toList) = true) :
    (∃ parsed, parseAnchor rt.withDates value = .ok (some parsed)) ↔
      (form = .day → ∀ c ∈ stripChars value.toList, c.isDigit = true ∨ c = '-') := by
  obtain ⟨shape, calendar⟩ := (Bool.and_eq_true _ _).mp named
  have range {year month : Nat} (valid : isCalendarDate year month 1 = true) :
      firstOfMonth year month = .ok (.date ⟨year, month, 1⟩) := by
    simp only [isCalendarDate, Bool.and_eq_true, decide_eq_true_eq] at valid
    rw [firstOfMonth, if_neg (by omega), if_neg (by omega)]
  cases form with
  | year => simp [parseAnchor_year shape, range calendar, Except.map]
  | month => simp [parseAnchor_month shape, range calendar, Except.map]
  | day =>
      rw [parseAnchor_day shape]
      have read := fromisoformat_day shape
      simp_all [Runtime.withDates]
  | datetime => cases shape

theorem parseAnchor_strip {value : String} :
    parseAnchor rt (strip value) = parseAnchor rt value := by
  rw [strip, parseAnchor_eq, parseAnchor_eq, String.toList_ofList,
    stripChars_of_trimmed (trimmed_stripChars _)]

/-- `anchor_form` asks `parse_anchor` about what no pattern takes. -/
theorem anchorForm_eq {value : String} : anchorForm rt value =
    if formOf (stripChars value.toList) = .datetime then
      (parseAnchor rt value).map (Option.map fun _ => AnchorForm.datetime)
    else .ok (some (formOf (stripChars value.toList))) := by
  have again : parseAnchor rt (String.ofList (stripChars value.toList)) = parseAnchor rt value :=
    parseAnchor_strip
  rw [anchorForm, formOf]
  simp only [again]
  by_cases year : isYear (stripChars value.toList) = true
  · simp [year]
  · by_cases month : isYearMonth (stripChars value.toList) = true
    · simp [year, month]
    · by_cases day : isYearMonthDay (stripChars value.toList) = true
      · simp [year, month, day]
      · simp only [year, month, day, if_true, Bool.false_eq_true, if_false]
        cases parseAnchor rt value with
        | error e => rfl
        | ok found => cases found <;> rfl

theorem anchorForm_of_parsed {value : String} {parsed : Anchor}
    (read : parseAnchor rt value = .ok (some parsed)) :
    anchorForm rt value = .ok (some (formOf (stripChars value.toList))) := by
  rw [anchorForm_eq, read]
  split
  · next other =>
      rw [other]
      rfl
  · rfl

/-- An anchor that parses is held to the precisions of its form. -/
theorem precisionMatchesAt_iff {value precision : String} {parsed : Anchor}
    (read : parseAnchor rt value = .ok (some parsed)) :
    precisionMatchesAt rt [("at", .str value)] precision = .ok precision ↔
      (formOf (stripChars value.toList)).Allows precision := by
  rw [precisionMatchesAt, AnchorForm.Allows]
  show (anchorForm rt value >>= _) = _ ↔ _
  rw [anchorForm_of_parsed read]
  generalize formOf (stripChars value.toList) = form
  have coarse (other : form ≠ .datetime) : form.value ∉ ["exact", "minute", "hour"] := by
    cases form <;> decide +revert
  simp only [Bind.bind, Except.bind, Pure.pure, Except.pure, throw, throwThe,
    MonadExceptOf.throw]
  by_cases approximate : precision = "approximate"
  · simp [approximate]
  · by_cases needsDatetime : precision ∈ ["exact", "minute", "hour"]
    · by_cases datetime : form = .datetime
      · simp [approximate, needsDatetime, datetime]
      · have differ : precision ≠ form.value := fun same => coarse datetime (same ▸ needsDatetime)
        simp [approximate, needsDatetime, datetime, differ]
    · by_cases datetime : form = .datetime
      · simp [approximate, needsDatetime, datetime]
      · simp [approximate, needsDatetime, datetime]

theorem AnchorForm.Allows.known {form : AnchorForm} {precision : String}
    (allowed : form.Allows precision) : precision ∈ precisions := by
  obtain rfl | fits := allowed
  · decide
  · cases form with
    | datetime =>
        simp only [if_true] at fits
        fin_cases fits <;> decide
    | _ =>
        simp only [if_neg, reduceCtorEq, not_false_eq_true] at fits
        subst fits
        decide

theorem TimeAnchor.accepted_iff_allows {a : TimeAnchor} : a.Accepted rt ↔
    (∃ parsed, parseAnchor rt a.«at» = .ok (some parsed)) ∧
      (formOf (stripChars a.«at».toList)).Allows a.precision ∧
      a.sourceSection ∈ sourceSections := by
  rw [TimeAnchor.accepted_iff]
  constructor
  · rintro ⟨⟨parsed, read⟩, _, agrees, listed⟩
    exact ⟨⟨parsed, read⟩, (precisionMatchesAt_iff read).mp agrees, listed⟩
  · rintro ⟨⟨parsed, read⟩, allowed, listed⟩
    exact ⟨⟨parsed, read⟩, allowed.known, (precisionMatchesAt_iff read).mpr allowed, listed⟩

end Classifiers

/-! ### Precision against form -/

/-- The trimmed text of an anchor. -/
def TimeAnchor.text (a : TimeAnchor) : List Char := stripChars a.«at».toList

/-- What the schema promises of an anchor: a fine precision stands with a time of day, a
coarse one with its own form, and a date in one of the forms is accepted with the
precision of that form and with no other but `approximate`. -/
structure TimeAnchor.FormsAgree (rt : Runtime) (a : TimeAnchor) : Prop where
  fine : a.Accepted rt → a.precision ∈ ["hour", "minute", "exact"] →
    (∃ d, parseAnchor rt a.«at» = .ok (some (.datetime d))) ∧ ('T' ∈ a.text ∨ ' ' ∈ a.text)
  coarse : ∀ form : AnchorForm, form ≠ .datetime → a.Accepted rt → a.precision = form.value →
    form.«matches» a.text = true
  converse : ∀ form : AnchorForm, form.namesDate a.text = true →
    a.sourceSection ∈ sourceSections →
      (a.Accepted rt ↔ a.precision = form.value ∨ a.precision = "approximate")

/-- A date that the library reads beyond the three patterns: basic form or a week date, also
with two more bytes behind either. -/
def TimeAnchor.BeyondPatterns (a : TimeAnchor) : Prop :=
  formOf a.text = .datetime ∧ SentAsDate a.text ∧ (readIsoDate a.text).isSome = true

/-- A full date in digits that the library does not read. -/
def TimeAnchor.ForeignDigits (a : TimeAnchor) : Prop :=
  AnchorForm.day.namesDate a.text = true ∧ ∃ c ∈ a.text, c.isDigit = false ∧ c ≠ '-'

section Precision

variable {rt : Runtime} {a : TimeAnchor}

theorem TimeAnchor.beyondPatterns_iff (rt : Runtime) : a.BeyondPatterns ↔
    formOf a.text = .datetime ∧ ∃ d, parseAnchor rt.withDates a.«at» = .ok (some (.date d)) := by
  refine and_congr_right fun form => ?_
  obtain ⟨parsed, read, dates, _⟩ := parseAnchor_other rt form
  rw [read]
  simp only [Except.ok.injEq, dates, exists_and_left, fromisoformat, strip, String.toList_ofList,
    Option.map_eq_some_iff, Option.isSome_iff_exists]
  refine and_congr_right fun _ => ⟨?_, ?_⟩
  · rintro ⟨found, reads⟩
    exact ⟨_, found, reads, rfl⟩
  · rintro ⟨_, found, reads, _⟩
    exact ⟨found, reads⟩

theorem AnchorForm.datetime_allows {precision : String}
    (fine : precision ∈ ["hour", "minute", "exact"]) : AnchorForm.datetime.Allows precision := by
  fin_cases fine <;> exact .inr (by decide)

/-- A fine precision goes with what the patterns leave. -/
theorem AnchorForm.Allows.fine {form : AnchorForm} {precision : String}
    (allowed : form.Allows precision) (fine : precision ∈ ["hour", "minute", "exact"]) :
    form = .datetime := by
  obtain rfl | fits := allowed
  · simp at fine
  · cases form with
    | datetime => rfl
    | _ =>
        simp only [if_neg, reduceCtorEq, not_false_eq_true] at fits
        subst fits
        exact absurd fine (by decide)

theorem AnchorForm.Allows.coarse {form : AnchorForm} {precision : String}
    (allowed : form.Allows precision) {stated : AnchorForm} (coarse : stated ≠ .datetime)
    (same : precision = stated.value) : form = stated := by
  subst same
  rw [AnchorForm.Allows] at allowed
  cases form <;> cases stated <;> simp_all [AnchorForm.value]

/-- Where the form is a datetime's, a fine anchor parses for one unless it is a date beyond
the patterns. -/
theorem TimeAnchor.fine_iff : (a.Accepted rt.withDates → a.precision ∈ ["hour", "minute", "exact"] →
      (∃ d, parseAnchor rt.withDates a.«at» = .ok (some (.datetime d))) ∧
        ('T' ∈ a.text ∨ ' ' ∈ a.text)) ↔
    (a.sourceSection ∈ sourceSections → a.precision ∈ ["hour", "minute", "exact"] →
      ¬ a.BeyondPatterns) := by
  rw [TimeAnchor.accepted_iff_allows]
  constructor
  · intro promised listed fine beyond
    obtain ⟨form, d, read⟩ := (TimeAnchor.beyondPatterns_iff rt).mp beyond
    have allowed : (formOf a.text).Allows a.precision := form ▸ AnchorForm.datetime_allows fine
    obtain ⟨⟨d', other⟩, _⟩ := promised ⟨⟨_, read⟩, allowed, listed⟩ fine
    rw [read] at other
    cases other
  · rintro within ⟨⟨parsed, read⟩, allowed, listed⟩ fine
    have form := allowed.fine fine
    obtain ⟨found, reads, dates, times⟩ := parseAnchor_other rt form
    obtain rfl : some parsed = found := Except.ok.inj (read.symm.trans reads)
    cases parsed with
    | date d =>
        have beyond := (TimeAnchor.beyondPatterns_iff rt).mpr ⟨form, d, read⟩
        exact absurd beyond (within listed fine)
    | datetime d => exact ⟨⟨d, read⟩, times d rfl⟩

/-- A coarse precision always stands with its form. -/
theorem TimeAnchor.Accepted.coarse (accepted : a.Accepted rt) {form : AnchorForm}
    (coarse : form ≠ .datetime) (same : a.precision = form.value) :
    form.«matches» a.text = true := by
  obtain ⟨_, allowed, _⟩ := TimeAnchor.accepted_iff_allows.mp accepted
  have stated : formOf a.text = form := allowed.coarse coarse same
  have pattern := matches_formOf (by rwa [stated])
  rwa [stated] at pattern

/-- A date in one of the forms is accepted as promised where it parses. -/
theorem TimeAnchor.converse_iff {form : AnchorForm} (named : form.namesDate a.text = true)
    (listed : a.sourceSection ∈ sourceSections) :
    (a.Accepted rt.withDates ↔ a.precision = form.value ∨ a.precision = "approximate") ↔
      (a.precision = form.value ∨ a.precision = "approximate" →
        form = .day → ∀ c ∈ a.text, c.isDigit = true ∨ c = '-') := by
  have shape := ((Bool.and_eq_true _ _).mp named).1
  have stated : formOf a.text = form := formOf_of_matches shape
  have coarse : form ≠ .datetime := by
    rintro rfl
    cases shape
  have accepted : a.Accepted rt.withDates ↔
      (form = .day → ∀ c ∈ a.text, c.isDigit = true ∨ c = '-') ∧
        (a.precision = form.value ∨ a.precision = "approximate") := by
    rw [TimeAnchor.accepted_iff_allows]
    refine and_congr (parses_iff_of_namesDate named) ?_
    show (formOf a.text).Allows _ ∧ _ ↔ _
    rw [stated, AnchorForm.Allows, if_neg coarse, and_iff_left listed, or_comm]
  rw [accepted]
  exact and_iff_right_iff_imp

/-- The promise holds of an anchor exactly if it is neither a date beyond the patterns under
a fine precision nor a full date in foreign digits under `day` or `approximate`. -/
theorem anchor_forms_agree_iff (rt : Runtime) (a : TimeAnchor) :
    a.FormsAgree rt.withDates ↔
      (a.sourceSection ∈ sourceSections →
        ¬ (a.precision ∈ ["hour", "minute", "exact"] ∧ a.BeyondPatterns) ∧
          ¬ (a.precision ∈ ["day", "approximate"] ∧ a.ForeignDigits)) := by
  constructor
  · intro agree listed
    constructor
    · rintro ⟨fine, beyond⟩
      exact TimeAnchor.fine_iff.mp agree.fine listed fine beyond
    · rintro ⟨precision, named, c, member, digit, hyphen⟩
      have ascii := (TimeAnchor.converse_iff named listed).mp (agree.converse .day named listed)
        (by simpa [AnchorForm.value] using precision) rfl c member
      simp_all
  · intro alike
    refine ⟨TimeAnchor.fine_iff.mpr fun listed fine beyond => (alike listed).1 ⟨fine, beyond⟩,
      fun form coarse accepted same => accepted.coarse coarse same, fun form named listed => ?_⟩
    apply (TimeAnchor.converse_iff named listed).mpr
    rintro precision rfl c member
    by_contra foreign
    obtain ⟨digit, hyphen⟩ := not_or.mp foreign
    exact (alike listed).2 ⟨by simpa [AnchorForm.value] using precision, named, c, member,
      Bool.eq_false_of_not_eq_true digit, hyphen⟩

/-- A day in ISO basic form under the precision of an hour. -/
def basicDate : TimeAnchor := ⟨"20251020", "hour", some "UTC", none, "timeline"⟩

theorem anchor_forms_disagree : basicDate.Accepted Runtime.ascii.withDates ∧
    parseAnchor Runtime.ascii.withDates basicDate.«at» = .ok (some (.date ⟨2025, 10, 20⟩)) ∧
    ¬ basicDate.FormsAgree Runtime.ascii.withDates := by
  have read : parseAnchor Runtime.ascii.withDates basicDate.«at» =
      .ok (some (.date ⟨2025, 10, 20⟩)) := by decide
  have accepted : basicDate.Accepted Runtime.ascii.withDates :=
    TimeAnchor.accepted_iff_allows.mpr ⟨⟨_, read⟩, .inr (by decide), by decide⟩
  refine ⟨accepted, read, fun agree => ?_⟩
  obtain ⟨⟨d, other⟩, _⟩ := agree.fine accepted (by decide)
  rw [read] at other
  cases other

end Precision

/-! ### The classifiers side by side -/

/-- The first day of the period that a text of a form names, or the day itself. -/
def AnchorForm.firstDay (form : AnchorForm) (text : List Char) : Date :=
  match form with
  | .year => ⟨intOfDigits text, 1, 1⟩
  | .month => ⟨intOfDigits (text.take 4), intOfDigits (text.drop 5), 1⟩
  | .day => ⟨intOfDigits (text.take 4), intOfDigits ((text.drop 5).take 2),
      intOfDigits (text.drop 8)⟩
  | .datetime => ⟨0, 0, 0⟩

/-- Neither classifier raises, and they say the same of a text. -/
inductive ClassifiersAgree (rt : Runtime) (value : String) : Prop where
  | neither (parsed : parseAnchor rt value = .ok none) (form : anchorForm rt value = .ok none)
  | datetime (d : Datetime) (parsed : parseAnchor rt value = .ok (some (.datetime d)))
      (form : anchorForm rt value = .ok (some .datetime))
  | date (form : AnchorForm) (coarse : form ≠ .datetime)
      (parsed : parseAnchor rt value =
        .ok (some (.date (form.firstDay (stripChars value.toList)))))
      (stated : anchorForm rt value = .ok (some form))

section SideBySide

variable {rt : Runtime} {value : String}

/-- Where a pattern takes the text, the classifiers agree if `parse_anchor` gives that day. -/
theorem classifiersAgree_of_pattern (pattern : formOf (stripChars value.toList) ≠ .datetime) :
    ClassifiersAgree rt value ↔ parseAnchor rt value = .ok (some (.date
      ((formOf (stripChars value.toList)).firstDay (stripChars value.toList)))) := by
  have form : anchorForm rt value = .ok (some (formOf (stripChars value.toList))) := by
    rw [anchorForm_eq, if_neg pattern]
  constructor
  · rintro (⟨_, other⟩ | ⟨d, _, other⟩ | ⟨stated, _, parsed, same⟩)
    · rw [form] at other
      cases other
    · rw [form] at other
      exact absurd (Option.some.inj (Except.ok.inj other)) pattern
    · rw [form] at same
      rwa [Option.some.inj (Except.ok.inj same)]
  · exact fun parsed => .date _ pattern parsed form

/-- Where none does, they agree unless `parse_anchor` gives a date. -/
theorem classifiersAgree_of_other (other : formOf (stripChars value.toList) = .datetime) :
    ClassifiersAgree rt.withDates value ↔
      (SentAsDate (stripChars value.toList) → fromisoformat (strip value) = none) := by
  obtain ⟨parsed, read, dates, _⟩ := parseAnchor_other rt other
  have form : anchorForm rt.withDates value =
      .ok (parsed.map fun _ => AnchorForm.datetime) := by
    rw [anchorForm_eq, if_pos other, read, Except.map]
  constructor
  · intro agree sent
    rw [Option.eq_none_iff_forall_ne_some]
    intro d unread
    rw [(dates d).mpr ⟨sent, unread⟩] at read form
    obtain ⟨none, _⟩ | ⟨d', parsed, _⟩ | ⟨stated, coarse, _, same⟩ := agree
    · rw [read] at none
      cases none
    · rw [read] at parsed
      cases parsed
    · rw [form] at same
      exact coarse (Option.some.inj (Except.ok.inj same)).symm
  · intro unread
    cases parsed with
    | none => exact .neither read form
    | some found =>
        cases found with
        | date d =>
            obtain ⟨sent, stated⟩ := (dates d).mp rfl
            rw [unread sent] at stated
            cases stated
        | datetime d => exact .datetime d read form

theorem one_le_daysInMonth (year month : Nat) : 1 ≤ daysInMonth year month := by
  rw [daysInMonth]
  split
  · split <;> decide
  · split <;> decide

theorem firstOfMonth_eq_ok {year month : Nat} {d : Date} :
    (firstOfMonth year month).map some = .ok (some (.date d)) ↔
      isCalendarDate year month 1 = true ∧ d = ⟨year, month, 1⟩ := by
  have valid : isCalendarDate year month 1 = true ↔
      ¬ (year < 1 ∨ 9999 < year) ∧ ¬ (month < 1 ∨ 12 < month) := by
    have first := one_le_daysInMonth year month
    simp only [isCalendarDate, Bool.and_eq_true, decide_eq_true_eq]
    omega
  rw [valid, firstOfMonth]
  by_cases years : year < 1 ∨ 9999 < year
  · rw [if_pos years]
    simp only [Except.map, reduceCtorEq, false_iff]
    exact fun found => found.1.1 years
  · by_cases months : month < 1 ∨ 12 < month
    · rw [if_neg years, if_pos months]
      simp only [Except.map, reduceCtorEq, false_iff]
      exact fun found => found.1.2 months
    · rw [if_neg years, if_neg months]
      simp only [Except.map, Except.ok.injEq, Option.some.injEq, Anchor.date.injEq, years, months,
        not_false_eq_true, true_and]
      exact eq_comm

/-- What a full date is read as. -/
theorem fromisoformat_day_eq {d : Date} (form : isYearMonthDay (stripChars value.toList) = true)
    (read : fromisoformat (strip value) = some d) :
    d = AnchorForm.day.firstDay (stripChars value.toList) := by
  obtain ⟨a, b, c, e, f, g, i, j, shape, digits⟩ := isYearMonthDay_shape form
  have calendar : f ≠ 'W' := by
    intro week
    have digit := digits f (by simp)
    rw [week] at digit
    exact absurd digit (by decide)
  rw [fromisoformat, strip, String.toList_ofList, shape, readIsoDate_day calendar] at read
  rw [shape]
  split at read
  · exact (Option.some.inj read).symm
  · cases read

/-- A full date is its own day where the library reads it. -/
theorem parseAnchor_day_eq_ok (form : isYearMonthDay (stripChars value.toList) = true) :
    parseAnchor rt.withDates value =
        .ok (some (.date (AnchorForm.day.firstDay (stripChars value.toList)))) ↔
      AnchorForm.day.namesDate (stripChars value.toList) = true ∧
        ∀ c ∈ stripChars value.toList, c.isDigit = true ∨ c = '-' := by
  have reader : rt.withDates.dateFromisoformat = fromisoformat := rfl
  rw [parseAnchor_day form, reader, ← fromisoformat_day form]
  simp only [Except.ok.injEq, Option.map_eq_some_iff, Anchor.date.injEq, exists_eq_right]
  constructor
  · exact fun read => ⟨_, read⟩
  · rintro ⟨d, read⟩
    rwa [← fromisoformat_day_eq form read]

/-- The classifiers agree on a text of one of the three patterns exactly if it names a date,
in ASCII digits where it is a full one; and on any other text exactly if the library does not
get it to read for a date or does not read it. -/
theorem classifiersAgree_iff (rt : Runtime) (value : String) :
    ClassifiersAgree rt.withDates value ↔
      if formOf (stripChars value.toList) = .datetime then
        SentAsDate (stripChars value.toList) → readIsoDate (stripChars value.toList) = none
      else (formOf (stripChars value.toList)).namesDate (stripChars value.toList) = true ∧
        (formOf (stripChars value.toList) = .day →
          ∀ c ∈ stripChars value.toList, c.isDigit = true ∨ c = '-') := by
  by_cases other : formOf (stripChars value.toList) = .datetime
  · rw [if_pos other, classifiersAgree_of_other other, fromisoformat, strip,
      String.toList_ofList, Option.map_eq_none_iff]
  · rw [if_neg other, classifiersAgree_of_pattern other]
    have shape := matches_formOf other
    cases form : formOf (stripChars value.toList) with
    | year =>
        rw [form] at shape
        have pattern : isYear (stripChars value.toList) = true := shape
        rw [parseAnchor_year pattern, firstOfMonth_eq_ok, AnchorForm.namesDate, shape]
        simp only [AnchorForm.firstDay, and_true, Bool.true_and, reduceCtorEq, false_implies]
    | month =>
        rw [form] at shape
        have pattern : isYearMonth (stripChars value.toList) = true := shape
        rw [parseAnchor_month pattern, firstOfMonth_eq_ok, AnchorForm.namesDate, shape]
        simp only [AnchorForm.firstDay, and_true, Bool.true_and, reduceCtorEq, false_implies]
    | day =>
        rw [form] at shape
        rw [parseAnchor_day_eq_ok shape]
        simp only [forall_const]
    | datetime => exact absurd form other

/-- The constructor of dates raises outside the `try`. -/
theorem classifiers_disagree : ¬ ClassifiersAgree Runtime.ascii.withDates "2025-13" ∧
    anchorForm Runtime.ascii.withDates "2025-13" = .ok (some .month) ∧
    parseAnchor Runtime.ascii.withDates "2025-13" = .error "month must be in 1..12" := by
  have raises : parseAnchor Runtime.ascii.withDates "2025-13" =
      .error "month must be in 1..12" := by decide
  have form : anchorForm Runtime.ascii.withDates "2025-13" = .ok (some .month) := by decide
  refine ⟨?_, form, raises⟩
  rintro (⟨parsed, _⟩ | ⟨d, parsed, _⟩ | ⟨stated, _, parsed, _⟩)
  all_goals
    rw [raises] at parsed
    cases parsed

end SideBySide

end IncidentPipeline
