import IncidentPipeline.Foundation.Text

/-!
# The calendar

The proleptic Gregorian calendar between the years 1 and 9999, week dates, and how
CPython reads ISO 8601 dates from version 3.11 on: calendar and week dates, each with
hyphens or without, and a week without a day. A text of 7, 8 or 10 bytes is read from its
start, and nothing looks at what is left of it behind the day. Only ASCII digits count,
unlike in the pattern `\d`.
-/

namespace Python

/-! ### Days -/

def isLeap (year : Nat) : Bool := year % 4 = 0 && (year % 100 ≠ 0 || year % 400 = 0)

def daysInMonth (year month : Nat) : Nat :=
  if month = 2 then if isLeap year then 29 else 28
  else if month ∈ [4, 6, 9, 11] then 30
  else 31

def daysBeforeYear (year : Nat) : Nat :=
  let y := year - 1
  y * 365 + y / 4 - y / 100 + y / 400

def daysBeforeMonth (year month : Nat) : Nat :=
  ((List.range (month - 1)).map fun m => daysInMonth year (m + 1)).sum

/-- `date.toordinal`: the first of January of the year 1 is day 1. -/
def toOrdinal (year month day : Nat) : Nat :=
  daysBeforeYear year + daysBeforeMonth year month + day

/-- Whether `date(year, month, day)` succeeds. -/
def isCalendarDate (year month day : Nat) : Bool :=
  (1 ≤ year && year ≤ 9999) && (1 ≤ month && month ≤ 12) &&
    (1 ≤ day && day ≤ daysInMonth year month)

/-- Year, month and day of an ordinal of the given year. -/
def fromOrdinal (year ordinal : Nat) : Nat × Nat × Nat :=
  let day := ordinal - daysBeforeYear year
  let month := ((List.range 12).filter fun m => daysBeforeMonth year (m + 1) < day).length
  (year, month, day - daysBeforeMonth year month)

/-- The day of an ISO week, in the year it belongs to or one next to it. -/
def fromIsoWeek (year week day : Nat) : Option (Nat × Nat × Nat) :=
  let first := toOrdinal year 1 1
  let weekday := (first + 6) % 7
  let long := weekday = 3 || (weekday = 2 && isLeap year)
  if (1 ≤ year ∧ year ≤ 9999) ∧ (1 ≤ week ∧ (week ≤ 52 ∨ week = 53 ∧ long)) ∧ 1 ≤ day ∧ day ≤ 7 then
    let ordinal := first - weekday + (if 3 < weekday then 7 else 0) + (week - 1) * 7 + (day - 1)
    if ordinal < first then some (fromOrdinal (year - 1) ordinal)
    else if ordinal < toOrdinal (year + 1) 1 1 then some (fromOrdinal year ordinal)
    else some (fromOrdinal (year + 1) ordinal)
  else none

/-! ### Reading -/

/-- The bytes that UTF-8 needs for the text. -/
def utf8Length : List Char → Nat
  | [] => 0
  | c :: text => c.utf8Size + utf8Length text

/-- `parse_digits`: the number that the next `n` characters write. -/
def readDigits (n : Nat) (text : List Char) : Option (Nat × List Char) :=
  if (text.take n).length = n && (text.take n).all Char.isDigit then
    some (intOfDigits (text.take n), text.drop n)
  else none

/-- The text behind a hyphen, if there has to be one. -/
def readSeparator (separated : Bool) (text : List Char) : Option (List Char) :=
  if separated then
    match text with
    | '-' :: rest => some rest
    | _ => none
  else some text

/-- Year, week and day, from the week on. -/
def readWeekDate (year : Nat) (separated : Bool) (text : List Char) :
    Option (Nat × Nat × Nat) := do
  let (week, text) ← readDigits 2 text
  if text = [] then fromIsoWeek year week 1
  else do
    let text ← readSeparator separated text
    let (day, _) ← readDigits 1 text
    fromIsoWeek year week day

/-- Year, month and day, from the month on. -/
def readCalendarDate (year : Nat) (separated : Bool) (text : List Char) :
    Option (Nat × Nat × Nat) := do
  let (month, text) ← readDigits 2 text
  let text ← readSeparator separated text
  let (day, _) ← readDigits 2 text
  some (year, month, day)

/-- What is behind the year: a hyphen decides whether there is another. -/
def readBehindYear (year : Nat) : List Char → Option (Nat × Nat × Nat)
  | '-' :: 'W' :: text => readWeekDate year true text
  | '-' :: text => readCalendarDate year true text
  | 'W' :: text => readWeekDate year false text
  | text => readCalendarDate year false text

/-- `parse_isoformat_date`, and then the constructor of dates. -/
def parseIsoformatDate (text : List Char) : Option (Nat × Nat × Nat) := do
  let (year, text) ← readDigits 4 text
  let found ← readBehindYear year text
  if isCalendarDate found.1 found.2.1 found.2.2 then some found else none

/-- `date.fromisoformat` looks at the length in bytes first. -/
def readIsoDate (text : List Char) : Option (Nat × Nat × Nat) :=
  if utf8Length text ∈ [7, 8, 10] then parseIsoformatDate text else none

theorem utf8Length_append (text rest : List Char) :
    utf8Length (text ++ rest) = utf8Length text + utf8Length rest := by
  induction text with
  | nil => simp [utf8Length]
  | cons c text ih =>
      simp only [List.cons_append, utf8Length, ih]
      omega

theorem length_le_utf8Length (text : List Char) : text.length ≤ utf8Length text := by
  induction text with
  | nil => exact le_refl 0
  | cons c text ih =>
      have size := c.utf8Size_pos
      simp only [List.length_cons, utf8Length]
      omega

/-- A digit is one byte. -/
theorem utf8Size_of_isDigit {c : Char} (digit : c.isDigit = true) : c.utf8Size = 1 := by
  rw [Char.utf8Size_eq_one_iff]
  simp only [Char.isDigit, Bool.and_eq_true, decide_eq_true_eq, ge_iff_le] at digit
  exact UInt32.le_trans digit.2 (by decide)

theorem utf8Length_of_digits {text : List Char} (digits : text.all Char.isDigit = true) :
    utf8Length text = text.length := by
  induction text with
  | nil => rfl
  | cons c text ih =>
      rw [List.all_cons, Bool.and_eq_true] at digits
      rw [utf8Length, utf8Size_of_isDigit digits.1, ih digits.2, List.length_cons]
      omega

theorem readDigits_spec {n v : Nat} {text rest : List Char}
    (read : readDigits n text = some (v, rest)) :
    ∃ digits, text = digits ++ rest ∧ digits.length = n ∧ ∀ c ∈ digits, c.isDigit = true := by
  rw [readDigits] at read
  split at read
  · next taken =>
      rw [Bool.and_eq_true, List.all_eq_true, decide_eq_true_eq] at taken
      cases read
      exact ⟨text.take n, (List.take_append_drop n text).symm, taken⟩
  · cases read

theorem readDigits_append {n : Nat} (digits rest : List Char) (length : digits.length = n) :
    readDigits n (digits ++ rest) =
      if digits.all Char.isDigit then some (intOfDigits digits, rest) else none := by
  simp [readDigits, ← length]

/-- A text that is read begins with a year. -/
theorem readIsoDate_year {text : List Char} {found : Nat × Nat × Nat}
    (read : readIsoDate text = some found) :
    utf8Length text ∈ [7, 8, 10] ∧ ∃ year rest, readDigits 4 text = some (year, rest) ∧
      readBehindYear year rest = some found := by
  rw [readIsoDate] at read
  split at read
  · next sized =>
      obtain ⟨⟨year, rest⟩, first, read⟩ := Option.bind_eq_some_iff.mp read
      obtain ⟨date, second, read⟩ := Option.bind_eq_some_iff.mp read
      split at read
      · cases read
        exact ⟨sized, year, rest, first, second⟩
      · cases read
  · cases read

/-- A text with the offset of UTC at its end is not read. -/
theorem readIsoDate_utc (text : List Char) :
    readIsoDate (text ++ ['+', '0', '0', ':', '0', '0']) = none := by
  rw [Option.eq_none_iff_forall_ne_some]
  intro found read
  obtain ⟨sized, year, rest, first, second⟩ := readIsoDate_year read
  obtain ⟨digits, split, four, all⟩ := readDigits_spec first
  have short := length_le_utf8Length text
  have offset : utf8Length ['+', '0', '0', ':', '0', '0'] = 6 := by decide
  rw [utf8Length_append, offset] at sized
  simp only [List.mem_cons, List.not_mem_nil, or_false] at sized
  obtain ⟨more, front, behind⟩ | ⟨more, front, behind⟩ := List.append_eq_append_iff.mp split
  · -- the year would reach into the offset
    cases more with
    | nil =>
        rw [List.append_nil] at front
        rw [List.nil_append] at behind
        subst behind
        exact absurd second (by simp [readBehindYear, readCalendarDate, readDigits])
    | cons c more =>
        obtain ⟨rfl, _⟩ := List.cons.inj behind
        exact absurd (all '+' (by rw [front]; simp)) (by decide)
  · have none_left : more = [] := by
      have lengths := congrArg List.length front
      rw [List.length_append] at lengths
      exact List.length_eq_zero_iff.mp (by omega)
    rw [none_left, List.nil_append] at behind
    subst behind
    exact absurd second (by simp [readBehindYear, readCalendarDate, readDigits])

theorem readCalendarDate_hyphen {year : Nat} {e f g h : Char} :
    readCalendarDate year true [e, f, '-', g, h] =
      if [e, f, g, h].all Char.isDigit then some (year, intOfDigits [e, f], intOfDigits [g, h])
      else none := by
  have month : readDigits 2 [e, f, '-', g, h] = _ :=
    readDigits_append [e, f] ['-', g, h] rfl
  have day : readDigits 2 [g, h] = _ := readDigits_append [g, h] [] rfl
  rw [readCalendarDate, month]
  by_cases first : [e, f].all Char.isDigit
  · rw [if_pos first]
    show (readDigits 2 [g, h] >>= _) = _
    rw [day]
    by_cases second : [g, h].all Char.isDigit
    · rw [if_pos second]
      simp_all
    · rw [if_neg second]
      simp_all
  · rw [if_neg first]
    simp_all

/-- A full date with hyphens. -/
theorem readIsoDate_day {a b c d e f g h : Char} (calendar : e ≠ 'W') :
    readIsoDate [a, b, c, d, '-', e, f, '-', g, h] =
      if [a, b, c, d, e, f, g, h].all Char.isDigit &&
          isCalendarDate (intOfDigits [a, b, c, d]) (intOfDigits [e, f]) (intOfDigits [g, h]) then
        some (intOfDigits [a, b, c, d], intOfDigits [e, f], intOfDigits [g, h])
      else none := by
  have behind : ∀ year, readBehindYear year ['-', e, f, '-', g, h] =
      readCalendarDate year true [e, f, '-', g, h] := by
    intro year
    unfold readBehindYear
    split
    · next same =>
        cases same
        exact absurd rfl calendar
    · next same =>
        cases same
        rfl
    · next same => cases same
    · next other _ => exact absurd rfl (other _)
  have year : readDigits 4 [a, b, c, d, '-', e, f, '-', g, h] = _ :=
    readDigits_append [a, b, c, d] ['-', e, f, '-', g, h] rfl
  have parsed : parseIsoformatDate [a, b, c, d, '-', e, f, '-', g, h] =
      if [a, b, c, d, e, f, g, h].all Char.isDigit &&
          isCalendarDate (intOfDigits [a, b, c, d]) (intOfDigits [e, f]) (intOfDigits [g, h]) then
        some (intOfDigits [a, b, c, d], intOfDigits [e, f], intOfDigits [g, h])
      else none := by
    rw [parseIsoformatDate, year]
    by_cases first : [a, b, c, d].all Char.isDigit
    · rw [if_pos first]
      show (readBehindYear _ ['-', e, f, '-', g, h] >>= _) = _
      rw [behind, readCalendarDate_hyphen]
      split
      · next found =>
          simp_all
      · next missing =>
          simp_all
    · rw [if_neg first]
      simp_all
  rw [readIsoDate, parsed]
  by_cases digits : [a, b, c, d, e, f, g, h].all Char.isDigit
  · have ten : utf8Length [a, b, c, d, '-', e, f, '-', g, h] = 10 := by
      have eight := utf8Length_of_digits digits
      have hyphen : Char.utf8Size '-' = 1 := rfl
      simp only [utf8Length, List.length_cons, List.length_nil, hyphen] at eight ⊢
      omega
    rw [if_pos (by rw [ten]; decide)]
  · simp [digits]

example : readIsoDate "2025-W43-1".toList = some (2025, 10, 20) := by decide

example : readIsoDate "20251020".toList = some (2025, 10, 20) := by decide

/-- The two bytes behind the day are not looked at. -/
example : readIsoDate "20251020é".toList = some (2025, 10, 20) := by decide

end Python
