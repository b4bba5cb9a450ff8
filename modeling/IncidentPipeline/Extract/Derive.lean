import IncidentPipeline.Extract.Anchors
import IncidentPipeline.Extract.Pipeline

/-!
# Derived durations

`extract/derive`: the two intervals computed from the anchors of a validated record.
The code compares only whether both datetimes carry an offset. Two that carry none are
subtracted as they stand, whatever their `timezone` fields say, so that the result is
the elapsed time exactly when these agree.
-/

namespace IncidentPipeline

open Python Pydantic

/-! ### The code -/

/-- `_ORDER`. -/
def order : List String := ["exact", "minute", "hour", "approximate"]

/-- `_NOT_A_DURATION`. -/
def notADuration : List String := ["day", "month", "year"]

def microsPerDay : Int := 24 * 60 * 60 * 1000000

/-- Microseconds on the clock that the datetime was read from. -/
def Datetime.clock (d : Datetime) : Int :=
  toOrdinal d.date.year d.date.month d.date.day * microsPerDay + d.micros

/-- `b - a` in microseconds; two aware datetimes are brought to UTC first. -/
def Datetime.minus (b a : Datetime) : Int :=
  match b.utcoffset, a.utcoffset with
  | some there, some here => (b.clock - there) - (a.clock - here)
  | _, _ => b.clock - a.clock

/-- `total_seconds()`, in exact arithmetic. -/
def totalSeconds (micros : Int) : ℚ := micros / 1000000

/-- `_ORDER.index`. -/
def orderIndex (precision : String) : Except String Nat :=
  if precision ∈ order then .ok (order.idxOf precision) else .error "tuple.index(x): x not in tuple"

/-- `max(start, end, key=_ORDER.index)`: the first of two that rank alike. -/
def coarserPrecision (start finish : String) : Except String String := do
  let first ← orderIndex start
  let second ← orderIndex finish
  return if first < second then finish else start

structure Interval where
  seconds : ℚ
  precision : String
deriving DecidableEq

/-- An interval with the anchor pair it was computed from. -/
structure Duration extends Interval where
  «from» : String
  «to» : String
deriving DecidableEq

structure Derived where
  timeToDetect : Option Duration
  timeToMitigate : Option Duration

/-- `_seconds_between`. -/
def secondsBetween (rt : Runtime) (start finish : Option TimeAnchor) :
    Except String (Option Interval) :=
  match start, finish with
  | some start, some finish =>
      if start.precision ∈ notADuration ∨ finish.precision ∈ notADuration then .ok none
      else do
        let a ← parseAnchor rt start.«at»
        let b ← parseAnchor rt finish.«at»
        match a, b with
        | some (.datetime a), some (.datetime b) =>
            if a.utcoffset.isNone ≠ b.utcoffset.isNone then return none
            let coarser ← coarserPrecision start.precision finish.precision
            return some ⟨totalSeconds (b.minus a), coarser⟩
        | _, _ => return none
  | _, _ => .ok none

/-- The anchor that a JSON value holds. -/
def TimeAnchor.ofJson (v : Json) : Option TimeAnchor :=
  match v.member? "at", v.member? "precision", v.member? "timezone", v.member? "quote",
    v.member? "source_section" with
  | some (.str «at»), some (.str precision), some timezone, some quote, some (.str section_) =>
      some ⟨«at», precision, textOf timezone, textOf quote, section_⟩
  | _, _, _, _, _ => none
where
  textOf : Json → Option String
    | .str s => some s
    | _ => none

/-- An anchor field of a validated record. -/
def anchorOf (record : Json) (field : String) : Option TimeAnchor :=
  TimeAnchor.ofJson (memberOf record field)

/-- The interval between two anchors of the record, under their names. -/
def deriveDuration (rt : Runtime) (record : Json) (start finish : String) :
    Except String (Option Duration) := do
  let found ← secondsBetween rt (anchorOf record start) (anchorOf record finish)
  return found.map fun interval => ⟨interval, start, finish⟩

def deriveDurations (rt : Runtime) (record : Json) : Except String Derived := do
  let timeToDetect ← deriveDuration rt record "impact_start" "detected_at"
  let timeToMitigate ← deriveDuration rt record "impact_start" "mitigated_at"
  return ⟨timeToDetect, timeToMitigate⟩

/-! ### Time zones -/

/-- An interpretation of the `timezone` texts, and of a missing one, as UTC offsets in
microseconds. -/
structure Zones where
  offset : Option String → Int
  bounded : ∀ zone, |offset zone| < microsPerDay

/-- The instant of an anchor: an offset in its text fixes the zone. -/
def Zones.instant (zones : Zones) (a : TimeAnchor) (d : Datetime) : Int :=
  d.clock - d.utcoffset.getD (zones.offset a.timezone)

/-- Two texts that differ can stand for zones an hour apart. -/
def Zones.apart (zone : Option String) : Zones where
  offset other := if other = zone then 60 * 60 * 1000000 else 0
  bounded other := by
    split <;> decide

/-- A difference of datetimes is the elapsed time whatever the zones are, if both have an
offset or neither has and the zones are written alike. -/
theorem minus_elapsed_iff {a b : TimeAnchor} {s e : Datetime}
    (alike : s.utcoffset.isNone = e.utcoffset.isNone) :
    (∀ zones : Zones, e.minus s = zones.instant b e - zones.instant a s) ↔
      (s.utcoffset = none → a.timezone = b.timezone) := by
  cases here : s.utcoffset with
  | some start =>
      obtain ⟨finish, there⟩ : ∃ finish, e.utcoffset = some finish := by
        rw [here] at alike
        exact Option.isSome_iff_exists.mp (by simpa using alike.symm)
      simp [Datetime.minus, Zones.instant, here, there]
  | none =>
      have there : e.utcoffset = none := by
        rw [here] at alike
        simpa using alike.symm
      simp only [Datetime.minus, Zones.instant, here, there, Option.getD_none, true_imp_iff]
      constructor
      · intro elapsed
        by_contra differ
        have hour := elapsed (Zones.apart a.timezone)
        simp only [Zones.apart, if_true, if_neg (Ne.symm differ)] at hour
        omega
      · intro same zones
        rw [same]
        omega

/-! ### What a derived duration is for -/

/-- Between which anchors, and that it is the elapsed time under every interpretation of the
zones. -/
structure Duration.Elapsed (rt : Runtime) (record : Json) (d : Duration)
    (start finish : String) : Prop where
  named : d.«from» = start ∧ d.«to» = finish
  elapsed : ∃ a b s e, anchorOf record start = some a ∧ anchorOf record finish = some b ∧
    parseAnchor rt a.«at» = .ok (some (.datetime s)) ∧
    parseAnchor rt b.«at» = .ok (some (.datetime e)) ∧
    ∀ zones : Zones, d.seconds = totalSeconds (zones.instant b e - zones.instant a s)

/-- No offset in the text of the anchor. -/
def TimeAnchor.NoOffset (rt : Runtime) (a : TimeAnchor) : Prop :=
  ∀ d, parseAnchor rt a.«at» = .ok (some (.datetime d)) → d.utcoffset = none

/-- The pair leaves open how the zones relate. -/
def Undecided (rt : Runtime) (record : Json) (start finish : String) : Prop :=
  ∃ a b, anchorOf record start = some a ∧ anchorOf record finish = some b ∧
    a.NoOffset rt ∧ b.NoOffset rt ∧ a.timezone ≠ b.timezone

/-- What is derived for a pair makes no decision about zones. -/
structure DecidesNoZone (rt : Runtime) (record : Json) (start finish : String)
    (derived : Option Duration) : Prop where
  elapsed : ∀ d ∈ derived, d.Elapsed rt record start finish
  refuses : Undecided rt record start finish → derived = none

/-- Two datetimes without an offset, and zones that are not written alike. -/
def MixedZones (rt : Runtime) (record : Json) (start finish : String) : Prop :=
  ∃ a b s e, anchorOf record start = some a ∧ anchorOf record finish = some b ∧
    parseAnchor rt a.«at» = .ok (some (.datetime s)) ∧
    parseAnchor rt b.«at» = .ok (some (.datetime e)) ∧
    s.utcoffset = none ∧ e.utcoffset = none ∧ a.timezone ≠ b.timezone

/-! ### Anchors of a validated record -/

section Validated

variable {rt : Runtime} {a : TimeAnchor}

theorem TimeAnchor.ofJson_toJson (a : TimeAnchor) : TimeAnchor.ofJson a.toJson = some a := by
  obtain ⟨written, precision, timezone, quote, section_⟩ := a
  cases timezone <;> cases quote <;> rfl

theorem validate_nullable_eq_ok {t : Ty Validator} {v w : Json}
    (h : (Ty.nullable t).validate (validators rt) v = .ok w) :
    w = .null ∨ t.validate (validators rt) v = .ok w := by
  cases v with
  | null => exact .inl (Except.ok.inj h).symm
  | _ => exact .inr h

/-- The fields of the record that hold anchors. -/
def anchorFields : List String :=
  ["change_at", "impact_start", "detected_at", "mitigated_at", "resolved_at"]

/-- Every anchor of a validated record has passed validation. -/
theorem anchorOf_accepted {data record : Json}
    (validated : incidentRecord.validate (validators rt) data = .ok record) {field : String}
    (listed : field ∈ anchorFields) (found : anchorOf record field = some a) : a.Accepted rt := by
  have member : (field, ({}, .nullable timeAnchor)) ∈ modelFields := by
    fin_cases listed <;> simp [modelFields]
  cases data with
  | obj members =>
      obtain ⟨w, result, stored⟩ :=
        member_of_validate_model modelFields_plain recordFields_nodup validated member
      obtain ⟨v, _, passed⟩ := FieldInfo.result_plain.mp result
      have read : memberOf record field = w := memberOf_eq stored
      rw [anchorOf, read] at found
      obtain rfl | valid := validate_nullable_eq_ok passed
      · cases found
      · obtain ⟨b, rfl, accepted⟩ := timeAnchor_accepted valid
        rw [TimeAnchor.ofJson_toJson] at found
        cases found
        exact accepted
  | _ => simp [incidentRecord, Ty.validate, fail] at validated

theorem coarse_form {precision : String} (coarse : precision ∈ notADuration) :
    ∃ form : AnchorForm, form ≠ .datetime ∧ precision = form.value := by
  fin_cases coarse
  · exact ⟨.day, by decide, rfl⟩
  · exact ⟨.month, by decide, rfl⟩
  · exact ⟨.year, by decide, rfl⟩

/-- A datetime never stands under a precision too coarse for a duration. -/
theorem TimeAnchor.Accepted.not_coarse (accepted : a.Accepted rt) {d : Datetime}
    (read : parseAnchor rt a.«at» = .ok (some (.datetime d))) : a.precision ∉ notADuration := by
  intro coarse
  obtain ⟨form, other, same⟩ := coarse_form coarse
  have pattern := accepted.coarse other same
  have firstDay : ∀ {year month}, (firstOfMonth year month).map some ≠
      .ok (some (.datetime d)) := by
    intro year month
    rw [firstOfMonth]
    split
    · simp [Except.map]
    · split <;> simp [Except.map]
  cases form with
  | year =>
      rw [parseAnchor_year pattern] at read
      exact firstDay read
  | month =>
      rw [parseAnchor_month pattern] at read
      exact firstDay read
  | day =>
      rw [parseAnchor_day pattern] at read
      simp at read
  | datetime => cases pattern

/-- Validated precisions that are left rank in the order. -/
theorem coarserPrecision_ok {start finish : String} (first : start ∈ order)
    (second : finish ∈ order) : ∃ coarser ∈ [start, finish],
      coarserPrecision start finish = .ok coarser ∧
        ∀ p ∈ [start, finish], order.idxOf p ≤ order.idxOf coarser := by
  rw [coarserPrecision, orderIndex, if_pos first, orderIndex, if_pos second]
  simp only [Bind.bind, Except.bind, Pure.pure, Except.pure]
  split
  · next later => exact ⟨finish, by simp, rfl, by simp; omega⟩
  · next earlier => exact ⟨start, by simp, rfl, by simp; omega⟩

theorem mem_order {precision : String} (known : precision ∈ precisions)
    (fine : precision ∉ notADuration) : precision ∈ order := by
  simp only [precisions, notADuration, order, List.mem_cons, List.not_mem_nil, or_false] at *
  grind

/-- Two datetimes that both carry an offset, or both carry none. -/
def Comparable (rt : Runtime) (a b : TimeAnchor) (s e : Datetime) : Prop :=
  parseAnchor rt a.«at» = .ok (some (.datetime s)) ∧
    parseAnchor rt b.«at» = .ok (some (.datetime e)) ∧ s.utcoffset.isNone = e.utcoffset.isNone

/-- The code returns on validated anchors: the difference where they compare, else nothing. -/
theorem secondsBetween_accepted {b : TimeAnchor} (first : a.Accepted rt) (second : b.Accepted rt) :
    ∃ found, secondsBetween rt (some a) (some b) = .ok found ∧
      ((∃ s e, Comparable rt a b s e ∧
          ∃ precision, coarserPrecision a.precision b.precision = .ok precision ∧
            found = some ⟨totalSeconds (e.minus s), precision⟩) ∨
        found = none ∧ ∀ s e, ¬ Comparable rt a b s e) := by
  obtain ⟨⟨x, readA⟩, allowedA, _⟩ := TimeAnchor.accepted_iff_allows.mp first
  obtain ⟨⟨y, readB⟩, allowedB, _⟩ := TimeAnchor.accepted_iff_allows.mp second
  simp only [secondsBetween, Comparable, readA, readB]
  by_cases times : ∃ s e, x = .datetime s ∧ y = .datetime e
  · obtain ⟨s, e, rfl, rfl⟩ := times
    have fineA := first.not_coarse readA
    have fineB := second.not_coarse readB
    obtain ⟨coarser, _, ranked, _⟩ :=
      coarserPrecision_ok (mem_order allowedA.known fineA) (mem_order allowedB.known fineB)
    rw [if_neg (not_or.mpr ⟨fineA, fineB⟩)]
    by_cases alike : s.utcoffset.isNone = e.utcoffset.isNone
    · refine ⟨some ⟨totalSeconds (e.minus s), coarser⟩, ?_,
        .inl ⟨s, e, ⟨rfl, rfl, alike⟩, coarser, ranked, rfl⟩⟩
      simp [Bind.bind, Except.bind, Pure.pure, Except.pure, alike, ranked]
    · refine ⟨none, ?_, .inr ⟨rfl, ?_⟩⟩
      · simp [Bind.bind, Except.bind, Pure.pure, Except.pure, alike]
      · rintro s' e' ⟨sameS, sameE, same⟩
        cases sameS
        cases sameE
        exact alike same
  · refine ⟨none, ?_, .inr ⟨rfl, ?_⟩⟩
    · split
      · rfl
      · cases x with
        | date d => rfl
        | datetime s =>
            cases y with
            | date d => rfl
            | datetime e => exact absurd ⟨s, e, rfl, rfl⟩ times
    · rintro s e ⟨sameS, sameE, _⟩
      cases sameS
      cases sameE
      exact times ⟨s, e, rfl, rfl⟩

theorem totalSeconds_injective : Function.Injective totalSeconds := by
  intro m n same
  rw [totalSeconds, totalSeconds, div_left_inj' (by norm_num)] at same
  exact_mod_cast same

variable {record : Json} {start finish : String}

theorem decidesNoZone_none : DecidesNoZone rt record start finish none :=
  ⟨by simp, fun _ => rfl⟩

/-- For one pair: no decision about zones is made exactly if the pair does not mix them. -/
theorem decidesNoZone_iff {b : TimeAnchor} {s e : Datetime} {seconds : ℚ} {precision : String}
    (foundA : anchorOf record start = some a) (foundB : anchorOf record finish = some b)
    (comparable : Comparable rt a b s e) (difference : seconds = totalSeconds (e.minus s)) :
    DecidesNoZone rt record start finish (some ⟨⟨seconds, precision⟩, start, finish⟩) ↔
      ¬ MixedZones rt record start finish := by
  obtain ⟨readA, readB, alike⟩ := comparable
  have zones_iff := minus_elapsed_iff (a := a) (b := b) alike
  constructor
  · rintro decides ⟨a', b', s', e', foundA', foundB', readA', readB', noneS, noneE, differ⟩
    cases foundA.symm.trans foundA'
    cases foundB.symm.trans foundB'
    cases readA.symm.trans readA'
    cases readB.symm.trans readB'
    obtain ⟨_, a', b', s', e', foundA', foundB', readA', readB', elapsed⟩ :=
      decides.elapsed _ rfl
    cases foundA.symm.trans foundA'
    cases foundB.symm.trans foundB'
    cases readA.symm.trans readA'
    cases readB.symm.trans readB'
    have every : ∀ zones : Zones, e.minus s = zones.instant b e - zones.instant a s :=
      fun zones => totalSeconds_injective (difference ▸ elapsed zones)
    exact differ (zones_iff.mp every noneS)
  · intro unmixed
    have agree : s.utcoffset = none → a.timezone = b.timezone := by
      intro noneS
      by_contra differ
      have noneE : e.utcoffset = none := by
        rw [noneS] at alike
        simpa using alike.symm
      exact unmixed ⟨a, b, s, e, foundA, foundB, readA, readB, noneS, noneE, differ⟩
    constructor
    · rintro d ⟨⟩
      refine ⟨⟨rfl, rfl⟩, a, b, s, e, foundA, foundB, readA, readB, fun zones => ?_⟩
      rw [difference, zones_iff.mpr agree zones]
    · rintro ⟨a', b', foundA', foundB', noneA, _, differ⟩
      cases foundA.symm.trans foundA'
      cases foundB.symm.trans foundB'
      exact absurd (agree (noneA s readA)) differ

/-- The derivation of one pair returns. -/
theorem deriveDuration_spec (start finish : String)
    (first : ∀ a, anchorOf record start = some a → a.Accepted rt)
    (second : ∀ b, anchorOf record finish = some b → b.Accepted rt) :
    ∃ derived, deriveDuration rt record start finish = .ok derived ∧
      (DecidesNoZone rt record start finish derived ↔ ¬ MixedZones rt record start finish) := by
  have unmixed (missing : anchorOf record start = none ∨ anchorOf record finish = none) :
      ¬ MixedZones rt record start finish := by
    rintro ⟨a, b, _, _, foundA, foundB, _⟩
    simp_all
  rw [deriveDuration]
  cases foundA : anchorOf record start with
  | none => exact ⟨none, rfl, iff_of_true decidesNoZone_none (unmixed (.inl foundA))⟩
  | some a =>
      cases foundB : anchorOf record finish with
      | none => exact ⟨none, rfl, iff_of_true decidesNoZone_none (unmixed (.inr foundB))⟩
      | some b =>
          obtain ⟨found, returned, outcome⟩ :=
            secondsBetween_accepted (first a foundA) (second b foundB)
          rw [returned]
          refine ⟨_, rfl, ?_⟩
          obtain ⟨s, e, comparable, precision, _, rfl⟩ | ⟨rfl, incomparable⟩ := outcome
          · exact decidesNoZone_iff foundA foundB comparable rfl
          · refine iff_of_true decidesNoZone_none ?_
            rintro ⟨a', b', s, e, foundA', foundB', readA, readB, noneS, noneE, _⟩
            cases foundA.symm.trans foundA'
            cases foundB.symm.trans foundB'
            exact incomparable s e ⟨readA, readB, by rw [noneS, noneE]⟩

/-- What the module promises of a record: it returns, and no duration rests on a decision
about zones. -/
def DurationsDecideNoZone (rt : Runtime) (record : Json) : Prop :=
  ∃ derived, deriveDurations rt record = .ok derived ∧
    DecidesNoZone rt record "impact_start" "detected_at" derived.timeToDetect ∧
    DecidesNoZone rt record "impact_start" "mitigated_at" derived.timeToMitigate

/-- Every anchor of the record has passed validation. -/
def Anchored (rt : Runtime) (record : Json) : Prop :=
  ∀ field ∈ anchorFields, ∀ a, anchorOf record field = some a → a.Accepted rt

/-- Both derivations return, each with what its own pair decides. -/
theorem Anchored.derives (anchored : Anchored rt record) :
    ∃ derived, deriveDurations rt record = .ok derived ∧
      (DecidesNoZone rt record "impact_start" "detected_at" derived.timeToDetect ↔
        ¬ MixedZones rt record "impact_start" "detected_at") ∧
      (DecidesNoZone rt record "impact_start" "mitigated_at" derived.timeToMitigate ↔
        ¬ MixedZones rt record "impact_start" "mitigated_at") := by
  obtain ⟨detect, detected, detect_iff⟩ := deriveDuration_spec "impact_start" "detected_at"
    (anchored _ (by decide)) (anchored _ (by decide))
  obtain ⟨mitigate, mitigated, mitigate_iff⟩ := deriveDuration_spec "impact_start" "mitigated_at"
    (anchored _ (by decide)) (anchored _ (by decide))
  refine ⟨⟨detect, mitigate⟩, ?_, detect_iff, mitigate_iff⟩
  rw [deriveDurations, detected, mitigated]
  rfl

theorem Anchored.durations_iff (anchored : Anchored rt record) :
    DurationsDecideNoZone rt record ↔
      ¬ MixedZones rt record "impact_start" "detected_at" ∧
        ¬ MixedZones rt record "impact_start" "mitigated_at" := by
  obtain ⟨derived, returned, detect_iff, mitigate_iff⟩ := anchored.derives
  rw [← detect_iff, ← mitigate_iff]
  constructor
  · rintro ⟨other, again, sound⟩
    cases returned.symm.trans again
    exact sound
  · exact fun sound => ⟨derived, returned, sound⟩

/-- The promise holds of a validated record exactly if in neither pair two datetimes without
an offset stand under different zones. -/
theorem durations_decide_no_zone_iff (rt : Runtime) {data record : Json}
    (validated : incidentRecord.validate (validators rt) data = .ok record) :
    DurationsDecideNoZone rt record ↔
      ¬ MixedZones rt record "impact_start" "detected_at" ∧
        ¬ MixedZones rt record "impact_start" "mitigated_at" :=
  Anchored.durations_iff fun _ listed _ => anchorOf_accepted validated listed

/-- A runtime that reads two times of one morning. -/
def morningRuntime : Runtime where
  __ := Runtime.ascii.withDates
  datetimeFromisoformat text :=
    if text = "2025-10-20T11:20:00" then some ⟨⟨2025, 10, 20⟩, 40800000000, none⟩
    else if text = "2025-10-20T11:50:00" then some ⟨⟨2025, 10, 20⟩, 42600000000, none⟩
    else none

/-- Impact at 11:20 UTC, detection at 11:50 in the given zone. -/
def morningRecord (zone : String) : Dict Json :=
  ((sparseRecord "Acme").set "impact_start"
    (TimeAnchor.toJson ⟨"2025-10-20T11:20:00", "minute", some "UTC", none, "timeline"⟩)).set
    "detected_at"
    (TimeAnchor.toJson ⟨"2025-10-20T11:50:00", "minute", some zone, none, "appendix"⟩)

/-- With one zone the promise is kept. -/
theorem durations_decide_no_zone_utc :
    DurationsDecideNoZone morningRuntime (.obj (morningRecord "UTC")) := by
  have valid : incidentRecord.validate (validators morningRuntime) (.obj (morningRecord "UTC")) =
      .ok (.obj (morningRecord "UTC")) := rfl
  apply (durations_decide_no_zone_iff morningRuntime valid).mpr
  constructor
  · rintro ⟨a, b, _, _, foundA, foundB, _, _, _, _, differ⟩
    cases foundA
    cases foundB
    exact differ rfl
  · rintro ⟨_, _, _, _, _, missing, _⟩
    cases missing

/-- Half an hour between 11:20 UTC and 11:50 PST. -/
theorem durations_mix_zones :
    incidentRecord.validate (validators morningRuntime) (.obj (morningRecord "PST")) =
        .ok (.obj (morningRecord "PST")) ∧
      deriveDurations morningRuntime (.obj (morningRecord "PST")) =
        .ok ⟨some ⟨⟨totalSeconds (30 * 60 * 1000000), "minute"⟩, "impact_start", "detected_at"⟩,
          none⟩ ∧
      ¬ DurationsDecideNoZone morningRuntime (.obj (morningRecord "PST")) := by
  have derived : deriveDurations morningRuntime (.obj (morningRecord "PST")) =
      .ok ⟨some ⟨⟨totalSeconds (30 * 60 * 1000000), "minute"⟩, "impact_start", "detected_at"⟩,
        none⟩ := rfl
  refine ⟨rfl, derived, ?_⟩
  rintro ⟨other, returned, detect, _⟩
  cases derived.symm.trans returned
  have undecided : Undecided morningRuntime (.obj (morningRecord "PST"))
      "impact_start" "detected_at" := by
    refine ⟨_, _, rfl, rfl, ?_, ?_, by decide⟩
    · rintro d ⟨⟩
      rfl
    · rintro d ⟨⟩
      rfl
  cases detect.refuses undecided

end Validated

/-! ### What the pipeline derives -/

/-- The title from the document's metadata leaves the anchors alone. -/
theorem anchorOf_overrideTitle {title : Option String} {record : Json} {field : String}
    (listed : field ∈ anchorFields) :
    anchorOf (overrideTitle title record) field = anchorOf record field := by
  have other : "title" ≠ field ∧ "title_source" ≠ field := by
    fin_cases listed <;> decide
  unfold overrideTitle
  split
  · split
    · rfl
    · have kept : ∀ members v w, memberOf (.obj (Dict.set (Dict.set members "title" v)
          "title_source" w)) field = memberOf (.obj members) field := by
        intro members v w
        show (Dict.get? _ field).getD _ = (Dict.get? _ field).getD _
        rw [Dict.get?_set, Dict.get?_set, if_neg other.2, if_neg other.1]
      rw [anchorOf, anchorOf, kept]
  · rfl

/-- A validated output has validated anchors, so that its durations can be derived. -/
theorem output_anchored {rt : Runtime} {data output : Json}
    (valid : extractionOutput.validate (validators rt) data = .ok output) :
    Anchored rt (memberOf output "record") := by
  intro field listed a found
  cases data with
  | obj members =>
      have field : ("record", {}, incidentRecord) ∈
          [("record", {}, incidentRecord),
            ("confidence", ({} : Metadata Validator), fieldConfidence)] := by
        simp
      obtain ⟨w, stated, stored⟩ := member_of_validate_model (by simp [FieldInfo.metadata])
        (by decide) valid field
      obtain ⟨v, _, passed⟩ := FieldInfo.result_plain.mp stated
      have read : memberOf output "record" = w := memberOf_eq stored
      rw [read] at found
      exact anchorOf_accepted passed listed found
  | _ => simp [extractionOutput, Ty.validate, fail] at valid

/-- The title from the document's metadata does no harm to them. -/
theorem extract_anchored {rt : Runtime} {client : LLMClient} {maxAttempts : Nat}
    {documentText sourceUrl : String} {documentTitle : Option String} {result : ExtractionResult}
    (h : extract rt client maxAttempts documentText documentTitle sourceUrl = .ok result) :
    Anchored rt (overrideTitle documentTitle (memberOf result.output "record")) := by
  obtain ⟨data, valid⟩ := extract_validated h
  intro field listed a found
  rw [anchorOf_overrideTitle listed] at found
  exact output_anchored valid field listed a found

/-- A complete extraction can always store its durations. -/
theorem extract_derives {rt : Runtime} {client : LLMClient} {maxAttempts : Nat}
    {documentText sourceUrl : String} {documentTitle : Option String} {result : ExtractionResult}
    (h : extract rt client maxAttempts documentText documentTitle sourceUrl = .ok result) :
    ∃ derived, deriveDurations rt
      (overrideTitle documentTitle (memberOf result.output "record")) = .ok derived := by
  obtain ⟨derived, returned, _⟩ := (extract_anchored h).derives
  exact ⟨derived, returned⟩

end IncidentPipeline
