import IncidentPipeline.Foundation.Text

/-!
# Regular expressions of characters in a row

The fragment of `re` in which a pattern is a row of characters and `\s`, each possibly
repeated with `+`: reading a pattern, the language of what was read, and the backtracking
search for its first occurrence. An escaped text reads as its own characters. The comparison
of characters is a parameter, with or without case.
-/

namespace Regex

open Python

inductive Atom where
  | literal (c : Char)
  | space
deriving DecidableEq, Repr

inductive Item where
  | one (a : Atom)
  | plus (a : Atom)
deriving DecidableEq, Repr

/-! ### Patterns -/

/-- The characters that `re.escape` escapes. -/
def specials : List Char :=
  ['(', ')', '[', ']', '{', '}', '?', '*', '+', '-', '|', '^', '$', '\\', '.', '&', '~', '#', ' ',
    '\t', '\n', '\r', '\x0b', '\x0c']

/-- The characters that a pattern does not have for themselves. -/
def metachars : List Char := ['.', '^', '$', '*', '+', '?', '{', '[', '\\', '|', '(', ')']

def escapeChar (c : Char) : List Char := if c ∈ specials then ['\\', c] else [c]

/-- `re.escape`. -/
def escape (text : List Char) : List Char := text.flatMap escapeChar

/-- Where the reading of a pattern stands: before an item, behind a backslash, or behind an
atom that may be repeated. -/
inductive Reading where
  | start
  | escaped
  | behind (a : Atom)

/-- The items of a pattern; nothing where it is not of the fragment. -/
def parseFrom : Reading → List Char → Option (List Item)
  | .start, [] => some []
  | .start, c :: rest =>
      if c = '\\' then parseFrom .escaped rest
      else if c ∈ metachars then none else parseFrom (.behind (.literal c)) rest
  | .escaped, [] => none
  | .escaped, c :: rest =>
      if c = 's' then parseFrom (.behind .space) rest
      else if c.isAlphanum then none else parseFrom (.behind (.literal c)) rest
  | .behind a, [] => some [.one a]
  | .behind a, c :: rest =>
      if c = '+' then (parseFrom .start rest).map (.plus a :: ·)
      else if c = '\\' then (parseFrom .escaped rest).map (.one a :: ·)
      else if c ∈ metachars then none
      else (parseFrom (.behind (.literal c)) rest).map (.one a :: ·)

def parse (pattern : List Char) : Option (List Item) := parseFrom .start pattern

/-- The items of a text that stands for itself. -/
def literals (text : List Char) : List Item := text.map fun c => .one (.literal c)

theorem parseFrom_behind {a : Atom} {text : List Char} (single : text.head? ≠ some '+') :
    parseFrom (.behind a) text = (parse text).map (.one a :: ·) := by
  cases text with
  | nil => rfl
  | cons c rest =>
      have other : c ≠ '+' := by simpa using single
      rw [parse, parseFrom, parseFrom, if_neg other]
      split
      · rfl
      · split <;> rfl

theorem metachars_subset : ∀ c ∈ metachars, c ∈ specials := by
  simp [metachars, specials]

theorem specials_not_alphanum : ∀ c ∈ specials, c.isAlphanum = false := by
  have checked : specials.all (fun c => !c.isAlphanum) = true := rfl
  intro c special
  exact Bool.not_eq_true' _ ▸ List.all_eq_true.mp checked c special

/-- An escaped character reads as itself. -/
theorem parse_escapeChar (c : Char) {text : List Char} (single : text.head? ≠ some '+') :
    parse (escapeChar c ++ text) = (parse text).map (.one (.literal c) :: ·) := by
  rw [← parseFrom_behind single, escapeChar]
  split
  · next special =>
      have letter := specials_not_alphanum c special
      have notS : c ≠ 's' := by
        rintro rfl
        exact absurd letter (by decide)
      show parseFrom .start ('\\' :: c :: text) = _
      rw [parseFrom, if_pos rfl, parseFrom, if_neg notS, if_neg (by simp [letter])]
  · next plain =>
      have unescaped : c ≠ '\\' := by
        rintro rfl
        exact plain (by decide)
      show parseFrom .start (c :: text) = _
      rw [parseFrom, if_neg unescaped, if_neg fun special => plain (metachars_subset c special)]

theorem head?_escape (w : List Char) {text : List Char} (single : text.head? ≠ some '+') :
    (escape w ++ text).head? ≠ some '+' := by
  cases w with
  | nil => exact single
  | cons c rest =>
      rw [escape, List.flatMap_cons, escapeChar]
      split
      · simp
      · next plain =>
          rw [List.append_assoc, List.singleton_append, List.head?_cons]
          intro same
          exact plain (Option.some.inj same ▸ by decide)

/-- An escaped text reads as its characters. -/
theorem parse_escape (w : List Char) {text : List Char} (single : text.head? ≠ some '+') :
    parse (escape w ++ text) = (parse text).map (literals w ++ ·) := by
  induction w with
  | nil => simp [escape, literals]
  | cons c rest ih =>
      have later : (escape rest ++ text).head? ≠ some '+' := head?_escape rest single
      have split : escape (c :: rest) ++ text = escapeChar c ++ (escape rest ++ text) := by
        rw [escape, List.flatMap_cons, List.append_assoc, ← escape]
      rw [split, parse_escapeChar c later, ih, Option.map_map]
      rfl

/-- `\s+` reads as white space. -/
theorem parse_spaces (text : List Char) :
    parse ('\\' :: 's' :: '+' :: text) = (parse text).map (.plus .space :: ·) := by
  rw [parse, parseFrom, if_pos rfl, parseFrom, if_pos rfl, parseFrom, if_pos rfl, parse]

/-! ### Case -/

/-- The tables of `re` for letters: the lower case of a character, and which other lower-case
characters stand for the same letter as one. -/
structure Cases where
  lower : Char → Char
  extra : Char → List Char

/-- Whether a literal of a pattern matches a character under `re.IGNORECASE`. -/
def Cases.same (cases : Cases) (c d : Char) : Bool :=
  cases.lower d == cases.lower c || cases.lower d ∈ cases.extra (cases.lower c)

/-! ### The language -/

section Language

variable (same : Char → Char → Bool)

def Atom.accepts : Atom → Char → Bool
  | .literal c, d => same c d
  | .space, d => isSpace d

/-- What the items match as a whole. -/
inductive Matches : List Item → List Char → Prop where
  | nil : Matches [] []
  | one {a : Atom} {c : Char} {items : List Item} {text : List Char}
      (first : a.accepts same c = true) (later : Matches items text) :
      Matches (.one a :: items) (c :: text)
  | last {a : Atom} {c : Char} {items : List Item} {text : List Char}
      (first : a.accepts same c = true) (later : Matches items text) :
      Matches (.plus a :: items) (c :: text)
  | more {a : Atom} {c : Char} {items : List Item} {text : List Char}
      (first : a.accepts same c = true) (later : Matches (.plus a :: items) text) :
      Matches (.plus a :: items) (c :: text)

variable {same} {items : List Item} {text : List Char} {a : Atom}

/-- A row of characters is matched one by one. -/
theorem matches_literals_append {w : List Char} : Matches same (literals w ++ items) text ↔
    ∃ front back, text = front ++ back ∧ List.Forall₂ (fun c d => same c d = true) w front ∧
      Matches same items back := by
  induction w generalizing text with
  | nil => simp [literals]
  | cons c rest ih =>
      constructor
      · intro whole
        cases whole with
        | one first later =>
            obtain ⟨front, back, rfl, spelled, matched⟩ := ih.mp later
            exact ⟨_ :: front, back, rfl, .cons first spelled, matched⟩
      · rintro ⟨front, back, rfl, spelled, matched⟩
        cases spelled with
        | cons first spelled => exact .one first (ih.mpr ⟨_, back, rfl, spelled, matched⟩)

/-- A repeated atom matches a run that is not empty. -/
theorem matches_plus_iff : Matches same (.plus a :: items) text ↔
    ∃ run back, text = run ++ back ∧ run ≠ [] ∧ (∀ c ∈ run, a.accepts same c = true) ∧
      Matches same items back := by
  constructor
  · intro whole
    induction text with
    | nil => cases whole
    | cons c rest ih =>
        cases whole with
        | last first later =>
            exact ⟨[c], rest, rfl, List.cons_ne_nil c [], by simpa using first, later⟩
        | more first later =>
            obtain ⟨run, back, rfl, _, accepted, matched⟩ := ih later
            exact ⟨c :: run, back, rfl, List.cons_ne_nil c run,
              List.forall_mem_cons.mpr ⟨first, accepted⟩, matched⟩
  · rintro ⟨run, back, rfl, filled, accepted, matched⟩
    induction run with
    | nil => exact absurd rfl filled
    | cons c rest ih =>
        obtain ⟨first, later⟩ := List.forall_mem_cons.mp accepted
        cases rest with
        | nil => exact .last first matched
        | cons d rest => exact .more first (ih (List.cons_ne_nil d rest) later)

theorem matches_nil_iff : Matches same [] text ↔ text = [] := by
  constructor
  · rintro ⟨⟩
    rfl
  · rintro rfl
    exact .nil

/-! ### Search -/

variable (same) in
/-- How much of the text the items match from its start; a repetition is tried longest
first. -/
def matchPrefix : List Char → List Item → Option ℕ
  | _, [] => some 0
  | [], _ :: _ => none
  | c :: text, .one a :: items =>
      if a.accepts same c then (matchPrefix text items).map (· + 1) else none
  | c :: text, .plus a :: items =>
      if a.accepts same c then
        ((matchPrefix text (.plus a :: items)).or (matchPrefix text items)).map (· + 1)
      else none

variable (same) in
/-- `re.search`: start and length of the first match. -/
def search (items : List Item) : List Char → Option (ℕ × ℕ)
  | [] => (matchPrefix same [] items).map fun length => (0, length)
  | c :: text =>
      match matchPrefix same (c :: text) items with
      | some length => some (0, length)
      | none => (search items text).map fun found => (found.1 + 1, found.2)

/-- What is matched from the start is of the language. -/
theorem matchPrefix_sound {n : ℕ} (found : matchPrefix same text items = some n) :
    ∃ front back, text = front ++ back ∧ front.length = n ∧ Matches same items front := by
  induction text generalizing items n with
  | nil =>
      cases items with
      | nil =>
          obtain rfl := Option.some.inj found
          exact ⟨[], [], rfl, rfl, .nil⟩
      | cons item items => cases found
  | cons c text ih =>
      cases items with
      | nil =>
          obtain rfl := Option.some.inj found
          exact ⟨[], c :: text, rfl, rfl, .nil⟩
      | cons item items =>
          cases item with
          | one a =>
              rw [matchPrefix] at found
              split at found
              · next first =>
                  obtain ⟨m, later, rfl⟩ := Option.map_eq_some_iff.mp found
                  obtain ⟨front, back, rfl, rfl, matched⟩ := ih later
                  exact ⟨c :: front, back, rfl, rfl, .one first matched⟩
              · cases found
          | plus a =>
              rw [matchPrefix] at found
              split at found
              · next first =>
                  obtain ⟨m, later, rfl⟩ := Option.map_eq_some_iff.mp found
                  obtain longer | ⟨_, shorter⟩ := Option.or_eq_some_iff.mp later
                  · obtain ⟨front, back, rfl, rfl, matched⟩ := ih longer
                    exact ⟨c :: front, back, rfl, rfl, .more first matched⟩
                  · obtain ⟨front, back, rfl, rfl, matched⟩ := ih shorter
                    exact ⟨c :: front, back, rfl, rfl, .last first matched⟩
              · cases found

/-- Backtracking misses nothing. -/
theorem matchPrefix_complete {front : List Char} (matched : Matches same items front)
    (back : List Char) : (matchPrefix same (front ++ back) items).isSome = true := by
  induction matched with
  | nil => rw [matchPrefix, Option.isSome_some]
  | one first _ ih => rwa [List.cons_append, matchPrefix, if_pos first, Option.isSome_map]
  | last first _ ih =>
      rw [List.cons_append, matchPrefix, if_pos first, Option.isSome_map, Option.isSome_or, ih,
        Bool.or_true]
  | more first _ ih =>
      rw [List.cons_append, matchPrefix, if_pos first, Option.isSome_map, Option.isSome_or, ih,
        Bool.true_or]

theorem search_sound {i n : ℕ} (found : search same items text = some (i, n)) :
    ∃ before occurrence after, text = before ++ occurrence ++ after ∧ before.length = i ∧
      occurrence.length = n ∧ Matches same items occurrence := by
  induction text generalizing i with
  | nil =>
      obtain ⟨m, here, same⟩ := Option.map_eq_some_iff.mp found
      cases same
      obtain ⟨front, back, split, length, matched⟩ := matchPrefix_sound here
      exact ⟨[], front, back, split, rfl, length, matched⟩
  | cons c text ih =>
      rw [search] at found
      split at found
      · next here =>
          cases found
          obtain ⟨front, back, split, length, matched⟩ := matchPrefix_sound here
          exact ⟨[], front, back, split, rfl, length, matched⟩
      · obtain ⟨⟨j, m⟩, later, same⟩ := Option.map_eq_some_iff.mp found
        cases same
        obtain ⟨before, occurrence, after, rfl, rfl, length, matched⟩ := ih later
        exact ⟨c :: before, occurrence, after, rfl, rfl, length, matched⟩

theorem search_complete {before occurrence after : List Char}
    (matched : Matches same items occurrence) :
    (search same items (before ++ occurrence ++ after)).isSome = true := by
  induction before with
  | nil =>
      have here := matchPrefix_complete matched after
      rw [List.nil_append]
      generalize occurrence ++ after = text at here ⊢
      cases text with
      | nil => rwa [search, Option.isSome_map]
      | cons c text =>
          obtain ⟨n, found⟩ := Option.isSome_iff_exists.mp here
          rw [search, found]
          rfl
  | cons c before ih =>
      rw [List.cons_append, List.cons_append, search]
      split
      · rfl
      · rwa [Option.isSome_map]

end Language

end Regex
