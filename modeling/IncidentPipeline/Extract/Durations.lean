import IncidentPipeline.Extract.Derive
import IncidentPipeline.Foundation.Double

/-!
# How durations add up

Exactly, the difference of two anchors changes its sign with their order, and the
differences along a chain of anchors add up. `total_seconds()` rounds each of them to a
double, so that what is stored adds up only to within these roundings, and exactly where
the differences are whole seconds.
-/

namespace IncidentPipeline

open Python Pydantic

/-- The float that `total_seconds()` returns. -/
def Interval.float (i : Interval) : ℚ := Double.nearest i.seconds

/-- The interval run the other way. -/
def Interval.reverse (i : Interval) : Interval := ⟨-i.seconds, i.precision⟩

/-- The signed difference of the two anchors, with its sign also after rounding. -/
def Interval.Signed (rt : Runtime) (a b : TimeAnchor) (i : Interval) : Prop :=
  ∃ s e, Comparable rt a b s e ∧ i.seconds = totalSeconds (e.minus s) ∧
    (i.float < 0 ↔ e.minus s < 0) ∧ (0 < i.float ↔ 0 < e.minus s)

/-- The seconds of `ac` are those of `ab` and of `bc` together: exactly before they are
rounded, afterwards to within three roundings. -/
structure AddsUp (ab bc ac : Interval) : Prop where
  seconds : ac.seconds = ab.seconds + bc.seconds
  float : |ac.float - (ab.float + bc.float)| ≤
    (|ac.seconds| + |ab.seconds| + |bc.seconds|) / 2 ^ 53
  whole : ∀ m n : ℤ, ab.seconds = m → bc.seconds = n →
    |m| < 2 ^ 53 → |n| < 2 ^ 53 → |m + n| < 2 ^ 53 → ac.float = ab.float + bc.float

/-- A precision that ranks no finer than those of the anchors, and is one of them. -/
structure NoFiner (a c : TimeAnchor) (precision : String) : Prop where
  ranked : a.precision ∈ order ∧ c.precision ∈ order
  taken : precision = a.precision ∨ precision = c.precision
  coarser : order.idxOf a.precision ≤ order.idxOf precision ∧
    order.idxOf c.precision ≤ order.idxOf precision

theorem AddsUp.of_seconds {ab bc ac : Interval} (sum : ac.seconds = ab.seconds + bc.seconds) :
    AddsUp ab bc ac where
  seconds := sum
  float := by
    rw [Interval.float, Interval.float, Interval.float, sum]
    exact Double.nearest_add_error ab.seconds bc.seconds
  whole m n first second left right both := by
    rw [Interval.float, Interval.float, Interval.float, sum, first, second]
    exact Double.nearest_add_intCast left right both

@[simp] theorem Interval.float_reverse (i : Interval) : i.reverse.float = -i.float :=
  Double.nearest_neg i.seconds

@[simp] theorem Interval.reverse_reverse (i : Interval) : i.reverse.reverse = i := by
  rw [reverse, reverse, neg_neg]

/-! ### Differences of datetimes -/

theorem Datetime.minus_swap (s e : Datetime) : s.minus e = -e.minus s := by
  rw [minus, minus]
  cases s.utcoffset <;> cases e.utcoffset <;> simp only <;> omega

/-- All three aware, or all three naive. -/
theorem Datetime.minus_add {s e u : Datetime} (first : s.utcoffset.isNone = e.utcoffset.isNone)
    (second : e.utcoffset.isNone = u.utcoffset.isNone) :
    u.minus s = e.minus s + u.minus e := by
  rw [minus, minus, minus]
  revert first second
  cases s.utcoffset <;> cases e.utcoffset <;> cases u.utcoffset <;> simp

theorem totalSeconds_neg (micros : Int) : totalSeconds (-micros) = -totalSeconds micros := by
  rw [totalSeconds, totalSeconds]
  push_cast
  ring

theorem totalSeconds_add (m n : Int) : totalSeconds (m + n) = totalSeconds m + totalSeconds n := by
  rw [totalSeconds, totalSeconds, totalSeconds]
  push_cast
  ring

theorem totalSeconds_pos {micros : Int} : 0 < totalSeconds micros ↔ 0 < micros := by
  rw [totalSeconds, div_pos_iff_of_pos_right (by norm_num)]
  exact Int.cast_pos

theorem totalSeconds_lt_zero {micros : Int} : totalSeconds micros < 0 ↔ micros < 0 := by
  rw [← neg_pos, ← totalSeconds_neg, totalSeconds_pos]
  omega

/-! ### Comparable anchors -/

section Anchors

variable {rt : Runtime} {a b c : TimeAnchor}

theorem Comparable.swap {s e : Datetime} (h : Comparable rt a b s e) : Comparable rt b a e s :=
  ⟨h.2.1, h.1, h.2.2.symm⟩

/-- The datetime in the middle is the same one. -/
theorem Comparable.trans {s e e' u : Datetime} (first : Comparable rt a b s e)
    (second : Comparable rt b c e' u) :
    Comparable rt a c s u ∧ u.minus s = e.minus s + u.minus e' := by
  obtain ⟨readA, readB, alike⟩ := first
  obtain ⟨readB', readC, alike'⟩ := second
  cases readB.symm.trans readB'
  exact ⟨⟨readA, readC, alike.trans alike'⟩, Datetime.minus_add alike alike'⟩

/-- What ranks alike is the same precision, so that the first of the two does not matter. -/
theorem coarserPrecision_comm {start finish : String} (first : start ∈ order)
    (second : finish ∈ order) : coarserPrecision start finish = coarserPrecision finish start := by
  rw [coarserPrecision, coarserPrecision, orderIndex, orderIndex, if_pos first, if_pos second]
  simp only [Bind.bind, Except.bind, Pure.pure, Except.pure]
  obtain before | same | after := Nat.lt_trichotomy (order.idxOf start) (order.idxOf finish)
  · rw [if_pos before, if_neg (by omega)]
  · rw [(List.idxOf_inj first).mp same]
  · rw [if_neg (by omega), if_pos after]

theorem TimeAnchor.Accepted.ranked (accepted : a.Accepted rt) {d : Datetime}
    (read : parseAnchor rt a.«at» = .ok (some (.datetime d))) : a.precision ∈ order := by
  obtain ⟨_, allowed, _⟩ := TimeAnchor.accepted_iff_allows.mp accepted
  exact mem_order allowed.known (accepted.not_coarse read)

/-- An interval is defined exactly for comparable anchors. -/
theorem secondsBetween_eq_some (first : a.Accepted rt) (second : b.Accepted rt) {i : Interval} :
    secondsBetween rt (some a) (some b) = .ok (some i) ↔
      ∃ s e, Comparable rt a b s e ∧ i.seconds = totalSeconds (e.minus s) ∧
        coarserPrecision a.precision b.precision = .ok i.precision := by
  obtain ⟨found, returned, outcome⟩ := secondsBetween_accepted first second
  rw [returned]
  obtain ⟨s, e, comparable, precision, coarser, rfl⟩ | ⟨rfl, incomparable⟩ := outcome
  · constructor
    · rintro ⟨⟩
      exact ⟨s, e, comparable, rfl, coarser⟩
    · rintro ⟨s', e', comparable', seconds, coarser'⟩
      cases comparable.1.symm.trans comparable'.1
      cases comparable.2.1.symm.trans comparable'.2.1
      cases coarser.symm.trans coarser'
      rw [← seconds]
  · constructor
    · rintro ⟨⟩
    · rintro ⟨s, e, comparable, _⟩
      exact absurd comparable (incomparable s e)

/-! ### The laws -/

theorem secondsBetween_signed (first : a.Accepted rt) (second : b.Accepted rt) {i : Interval}
    (defined : secondsBetween rt (some a) (some b) = .ok (some i)) : i.Signed rt a b := by
  obtain ⟨s, e, comparable, seconds, _⟩ := (secondsBetween_eq_some first second).mp defined
  refine ⟨s, e, comparable, seconds, ?_, ?_⟩
  · rw [Interval.float, seconds, Double.nearest_neg_iff, totalSeconds_lt_zero]
  · rw [Interval.float, seconds, Double.nearest_pos_iff, totalSeconds_pos]

/-- The other order gives the interval with its sign changed. -/
theorem secondsBetween_reverse (first : a.Accepted rt) (second : b.Accepted rt) {i : Interval}
    (defined : secondsBetween rt (some a) (some b) = .ok (some i)) :
    secondsBetween rt (some b) (some a) = .ok (some i.reverse) := by
  obtain ⟨s, e, comparable, seconds, coarser⟩ := (secondsBetween_eq_some first second).mp defined
  apply (secondsBetween_eq_some second first).mpr
  refine ⟨e, s, comparable.swap, ?_, ?_⟩
  · show -i.seconds = totalSeconds (s.minus e)
    rw [seconds, Datetime.minus_swap s e, totalSeconds_neg]
  · rw [coarserPrecision_comm (second.ranked comparable.2.1) (first.ranked comparable.1)]
    exact coarser

/-- Validated anchors raise nothing, in neither order. -/
theorem secondsBetween_both_orders {start finish : Option TimeAnchor}
    (first : ∀ a ∈ start, a.Accepted rt) (second : ∀ b ∈ finish, b.Accepted rt) :
    ∃ found, secondsBetween rt start finish = .ok found ∧
      secondsBetween rt finish start = .ok (found.map Interval.reverse) ∧
      ∀ i ∈ found, ∃ a ∈ start, ∃ b ∈ finish, i.Signed rt a b := by
  cases start with
  | none => exact ⟨none, rfl, by cases finish <;> rfl, by simp⟩
  | some a =>
      cases finish with
      | none => exact ⟨none, rfl, rfl, by simp⟩
      | some b =>
          have first := first a rfl
          have second := second b rfl
          obtain ⟨found, returned, _⟩ := secondsBetween_accepted first second
          obtain ⟨back, returned', _⟩ := secondsBetween_accepted second first
          refine ⟨found, returned, ?_, ?_⟩
          · cases found with
            | some i => exact secondsBetween_reverse first second returned
            | none =>
                cases back with
                | none => exact returned'
                | some i =>
                    have again := secondsBetween_reverse second first returned'
                    cases returned.symm.trans again
          · rintro i ⟨⟩
            exact ⟨a, rfl, b, rfl, secondsBetween_signed first second returned⟩

/-- Defined for two pairs in a row, defined across both. -/
theorem secondsBetween_chain (first : a.Accepted rt) (second : b.Accepted rt)
    (third : c.Accepted rt) {ab bc : Interval}
    (left : secondsBetween rt (some a) (some b) = .ok (some ab))
    (right : secondsBetween rt (some b) (some c) = .ok (some bc)) :
    ∃ ac, secondsBetween rt (some a) (some c) = .ok (some ac) ∧ AddsUp ab bc ac ∧
      NoFiner a c ac.precision := by
  obtain ⟨s, e, early, seconds, _⟩ := (secondsBetween_eq_some first second).mp left
  obtain ⟨e', u, late, seconds', _⟩ := (secondsBetween_eq_some second third).mp right
  obtain ⟨across, sum⟩ := early.trans late
  have rankedA := first.ranked across.1
  have rankedC := third.ranked across.2.1
  obtain ⟨coarser, taken, ranked, bound⟩ := coarserPrecision_ok rankedA rankedC
  refine ⟨⟨totalSeconds (u.minus s), coarser⟩, ?_, ?_, ?_⟩
  · exact (secondsBetween_eq_some first third).mpr ⟨s, u, across, rfl, ranked⟩
  · apply AddsUp.of_seconds
    rw [seconds, seconds', ← totalSeconds_add, sum]
  · exact ⟨⟨rankedA, rankedC⟩, by simpa using taken, by simpa using bound⟩

/-! ### Durations of a record -/

variable {record : Json} {start finish : String}

theorem deriveDuration_eq_some {d : Duration}
    (derived : deriveDuration rt record start finish = .ok (some d)) :
    secondsBetween rt (anchorOf record start) (anchorOf record finish) =
      .ok (some d.toInterval) := by
  rw [deriveDuration] at derived
  cases found : secondsBetween rt (anchorOf record start) (anchorOf record finish) with
  | error e => simp [found, Bind.bind, Except.bind] at derived
  | ok interval =>
      simp only [found, Bind.bind, Except.bind, Pure.pure, Except.pure, Except.ok.injEq] at derived
      obtain ⟨i, rfl, rfl⟩ := Option.map_eq_some_iff.mp derived
      rfl

/-- An interval is found only between anchors that are there. -/
theorem secondsBetween_present {x y : Option TimeAnchor} {i : Interval}
    (defined : secondsBetween rt x y = .ok (some i)) : ∃ a b, x = some a ∧ y = some b := by
  cases x with
  | none => cases defined
  | some a =>
      cases y with
      | none => cases defined
      | some b => exact ⟨a, b, rfl, rfl⟩

/-- Both durations start at the impact, so that they differ by what lies between detection
and mitigation. -/
theorem Anchored.between (anchored : Anchored rt record) {derived : Derived}
    {detect mitigate : Duration} (returned : deriveDurations rt record = .ok derived)
    (detected : derived.timeToDetect = some detect)
    (mitigated : derived.timeToMitigate = some mitigate) :
    ∃ between, secondsBetween rt (anchorOf record "detected_at") (anchorOf record "mitigated_at") =
        .ok (some between) ∧
      AddsUp detect.toInterval between mitigate.toInterval := by
  obtain ⟨first, second, earlier, later⟩ : ∃ x y,
      deriveDuration rt record "impact_start" "detected_at" = .ok x ∧
        deriveDuration rt record "impact_start" "mitigated_at" = .ok y := by
    obtain ⟨x, first, _⟩ := deriveDuration_spec "impact_start" "detected_at"
      (anchored _ (by decide)) (anchored _ (by decide))
    obtain ⟨y, second, _⟩ := deriveDuration_spec "impact_start" "mitigated_at"
      (anchored _ (by decide)) (anchored _ (by decide))
    exact ⟨x, y, first, second⟩
  rw [deriveDurations, earlier, later] at returned
  cases returned
  rw [show first = some detect from detected] at earlier
  rw [show second = some mitigate from mitigated] at later
  have toDetect := deriveDuration_eq_some earlier
  have toMitigate := deriveDuration_eq_some later
  obtain ⟨a, b, impact, detection⟩ := secondsBetween_present toDetect
  obtain ⟨_, c, _, mitigation⟩ := secondsBetween_present toMitigate
  have acceptedA := anchored "impact_start" (by decide) a impact
  have acceptedB := anchored "detected_at" (by decide) b detection
  have acceptedC := anchored "mitigated_at" (by decide) c mitigation
  rw [impact, detection] at toDetect
  rw [impact, mitigation] at toMitigate
  rw [detection, mitigation]
  have back := secondsBetween_reverse acceptedA acceptedB toDetect
  obtain ⟨between, found, sum, _⟩ :=
    secondsBetween_chain acceptedB acceptedA acceptedC back toMitigate
  refine ⟨between, found, AddsUp.of_seconds ?_⟩
  rw [sum.seconds, Interval.reverse]
  ring

end Anchors

/-- Validated anchors raise nothing, their intervals change sign with the order and add up
along a chain, and the durations of a validated record differ by the interval between
detection and mitigation. -/
theorem durations_add_up (rt : Runtime) :
    (∀ start finish : Option TimeAnchor, (∀ a ∈ start, a.Accepted rt) →
      (∀ b ∈ finish, b.Accepted rt) →
        ∃ found, secondsBetween rt start finish = .ok found ∧
          secondsBetween rt finish start = .ok (found.map Interval.reverse) ∧
          ∀ i ∈ found, i.reverse.float = -i.float ∧
            ∃ a ∈ start, ∃ b ∈ finish, i.Signed rt a b) ∧
      (∀ a b c : TimeAnchor, a.Accepted rt → b.Accepted rt → c.Accepted rt → ∀ ab bc,
        secondsBetween rt (some a) (some b) = .ok (some ab) →
        secondsBetween rt (some b) (some c) = .ok (some bc) →
          ∃ ac, secondsBetween rt (some a) (some c) = .ok (some ac) ∧ AddsUp ab bc ac ∧
            NoFiner a c ac.precision) ∧
      ∀ data record, incidentRecord.validate (validators rt) data = .ok record →
        ∃ derived, deriveDurations rt record = .ok derived ∧
          ∀ detect ∈ derived.timeToDetect, ∀ mitigate ∈ derived.timeToMitigate,
            ∃ between, secondsBetween rt (anchorOf record "detected_at")
                (anchorOf record "mitigated_at") = .ok (some between) ∧
              AddsUp detect.toInterval between mitigate.toInterval := by
  refine ⟨?_, ?_, ?_⟩
  · intro start finish first second
    obtain ⟨found, returned, back, signed⟩ := secondsBetween_both_orders first second
    exact ⟨found, returned, back, fun i member => ⟨i.float_reverse, signed i member⟩⟩
  · intro a b c first second third ab bc left right
    exact secondsBetween_chain first second third left right
  · intro data record validated
    have anchored : Anchored rt record := fun _ listed _ => anchorOf_accepted validated listed
    obtain ⟨derived, returned, _⟩ := anchored.derives
    refine ⟨derived, returned, ?_⟩
    intro detect detected mitigate mitigated
    exact anchored.between returned detected mitigated

/-- A runtime that reads three times within one second. -/
def fractionsRuntime : Runtime where
  __ := Runtime.ascii.withDates
  datetimeFromisoformat text :=
    if text = "2025-10-20T11:20:00" then some ⟨⟨2025, 10, 20⟩, 40800000000, none⟩
    else if text = "2025-10-20T11:20:00.1" then some ⟨⟨2025, 10, 20⟩, 40800100000, none⟩
    else if text = "2025-10-20T11:20:00.3" then some ⟨⟨2025, 10, 20⟩, 40800300000, none⟩
    else none

/-- An anchor with the precision of its fraction of a second. -/
def fractionAnchor (text : String) : TimeAnchor := ⟨text, "exact", some "UTC", none, "timeline"⟩

/-- Detection a tenth and mitigation three tenths of a second after the impact. -/
def fractionsRecord : Dict Json :=
  (((sparseRecord "Acme").set "impact_start" (fractionAnchor "2025-10-20T11:20:00").toJson).set
    "detected_at" (fractionAnchor "2025-10-20T11:20:00.1").toJson).set
    "mitigated_at" (fractionAnchor "2025-10-20T11:20:00.3").toJson

theorem nearest_tenth : Double.nearest (1 / 10) = (7205759403792794 : ℤ) * 2 ^ (-56 : ℤ) := by
  apply Double.nearest_eq_of_near <;> norm_num [abs_lt]

theorem nearest_fifth : Double.nearest (1 / 5) = (7205759403792794 : ℤ) * 2 ^ (-55 : ℤ) := by
  apply Double.nearest_eq_of_near <;> norm_num [abs_lt]

theorem nearest_three_tenths :
    Double.nearest (3 / 10) = (5404319552844595 : ℤ) * 2 ^ (-54 : ℤ) := by
  apply Double.nearest_eq_of_near <;> norm_num [abs_lt]

/-- The sum of the two doubles lies halfway between two others. -/
theorem nearest_tenth_add_fifth :
    Double.nearest (Double.nearest (1 / 10) + Double.nearest (1 / 5)) =
      (5404319552844596 : ℤ) * 2 ^ (-54 : ℤ) := by
  rw [nearest_tenth, nearest_fifth]
  apply Double.nearest_eq
  · norm_num
  · norm_num
  · apply Double.roundHalfEven_tie
    · norm_num [abs_eq]
    · decide

/-- One tenth and two tenths of a second are not three tenths, once they are rounded. -/
theorem fractions_do_not_add_up :
    incidentRecord.validate (validators fractionsRuntime) (.obj fractionsRecord) =
        .ok (.obj fractionsRecord) ∧
      ∃ detect mitigate between,
        deriveDurations fractionsRuntime (.obj fractionsRecord) =
          .ok ⟨some ⟨detect, "impact_start", "detected_at"⟩,
            some ⟨mitigate, "impact_start", "mitigated_at"⟩⟩ ∧
        secondsBetween fractionsRuntime (anchorOf (.obj fractionsRecord) "detected_at")
          (anchorOf (.obj fractionsRecord) "mitigated_at") = .ok (some between) ∧
        mitigate.float ≠ detect.float + between.float ∧
        mitigate.float ≠ Double.nearest (detect.float + between.float) := by
  refine ⟨rfl, ⟨totalSeconds 100000, "exact"⟩, ⟨totalSeconds 300000, "exact"⟩,
    ⟨totalSeconds 200000, "exact"⟩, rfl, rfl, ?_⟩
  have detect : totalSeconds 100000 = 1 / 10 := by norm_num [totalSeconds]
  have between : totalSeconds 200000 = 1 / 5 := by norm_num [totalSeconds]
  have mitigate : totalSeconds 300000 = 3 / 10 := by norm_num [totalSeconds]
  rw [Interval.float, Interval.float, Interval.float, detect, between, mitigate,
    nearest_tenth_add_fifth, nearest_tenth, nearest_fifth, nearest_three_tenths]
  constructor <;> norm_num

end IncidentPipeline
