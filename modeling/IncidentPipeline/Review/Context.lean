import IncidentPipeline.Eval.Scoring
import IncidentPipeline.Foundation.Regex

/-!
# Quotes and where they stand

`review/context`: the phrases that a record cites for a field, and each of them located in the
source text. A phrase is looked for as it is, and then by its words, in any case and with any
white space between them; the page warns of those that are not found.
-/

namespace IncidentPipeline.Context

open Python Scoring

/-! ### Quotes -/

def defaultRadius : ℕ := 350

def anchorFields : List String :=
  ["change_at", "impact_start", "detected_at", "mitigated_at", "resolved_at"]

/-- The values that may be quotes of a field. -/
def cited (field : String) (record : Dict Json) : Except Exc (List Json) :=
  let value := (record.get? field).getD .null
  if field ∈ ["trigger", "mechanism"] ∨ field ∈ anchorFields then
    match value with
    | .obj members => .ok [(Dict.get? members "quote").getD .null]
    | _ => .ok []
  else if field ∈ ["detection_method", "detection_quote"] then
    .ok [(record.get? "detection_quote").getD .null]
  else if field = "blast_radius" then
    match value with
    | .obj members => do
        let quantities ← iterateOrEmpty ((Dict.get? members "quantitative").getD (.arr []))
        quantities.mapM fun q => do return (← getOf q "quote").getD .null
    | _ => .ok []
  else if field ∈ ["time_to_detect_text", "time_to_mitigate_text", "title"] then .ok [value]
  else .ok []

/-- The loop that keeps the texts that are not blank, each once. -/
def addQuote (out : List String) : Json → List String
  | .str quote => if strip quote ≠ "" ∧ quote ∉ out then out ++ [quote] else out
  | _ => out

def quotesFor (field : String) (record : Dict Json) : Except Exc (List String) := do
  return (← cited field record).foldl addQuote []

/-! ### Locating -/

/-- `document.find(quote)`. -/
def find (quote : List Char) : List Char → Option ℕ
  | [] => if quote = [] then some 0 else none
  | c :: rest =>
      if quote.isPrefixOf (c :: rest) then some 0 else (find quote rest).map (· + 1)

/-- `text.split()`. -/
def split (text : List Char) : List (List Char) := (text.splitOnP isSpace).filter (· ≠ [])

/-- `r"\s+".join(re.escape(word) for word in words)`. -/
def pattern (words : List (List Char)) : List Char :=
  ['\\', 's', '+'].intercalate (words.map Regex.escape)

/-- `_locate`: start and end. -/
def locate (cases : Regex.Cases) (document quote : List Char) :
    Except Exc (Option (ℕ × ℕ)) :=
  match find quote document with
  | some start => .ok (some (start, start + quote.length))
  | none =>
      if split quote = [] then .ok none
      else
        match Regex.parse (pattern (split quote)) with
        | none => .error (foreign "error" "not a pattern of the fragment")
        | some items =>
            .ok ((Regex.search cases.same items document).map fun found =>
              (found.1, found.1 + found.2))

structure Snippet where
  quote : String
  found : Bool
  before : String
  «match» : String
  after : String
  start : Option ℕ
deriving DecidableEq, Repr

/-- `document[start:stop]`. -/
def slice (document : List Char) (start stop : ℕ) : String :=
  String.ofList ((document.drop start).take (stop - start))

def snippet (cases : Regex.Cases) (document : List Char) (radius : ℕ) (quote : String) :
    Except Exc Snippet := do
  match ← locate cases document quote.toList with
  | none => return ⟨quote, false, "", "", "", none⟩
  | some (start, stop) =>
      return ⟨quote, true, slice document (start - radius) start, slice document start stop,
        slice document stop (stop + radius), some start⟩

def snippets (cases : Regex.Cases) (document : String) (quotes : List String)
    (radius : ℕ) : Except Exc (List Snippet) :=
  quotes.mapM (snippet cases document.toList radius)

/-- The warnings of `_render`. -/
def missingQuotes (cases : Regex.Cases) (document field : String) (record : Dict Json) :
    Except Exc (List String) := do
  let located ← snippets cases document (← quotesFor field record) defaultRadius
  return (located.filter fun s => !s.found).map Snippet.quote

/-! ### Occurrences -/

/-- A text has these words in a row, with white space between them. -/
inductive Spells (cases : Regex.Cases) : List (List Char) → List Char → Prop where
  | word {w text : List Char} (spelled : List.Forall₂ (fun c d => cases.same c d = true) w text) :
      Spells cases [w] text
  | more {w v : List Char} {words : List (List Char)} {text gap rest : List Char}
      (spelled : List.Forall₂ (fun c d => cases.same c d = true) w text) (filled : gap ≠ [])
      (spaces : ∀ c ∈ gap, isSpace c = true) (later : Spells cases (v :: words) rest) :
      Spells cases (w :: v :: words) (text ++ (gap ++ rest))

/-- An occurrence of a quote: itself, or its words. -/
def IsOccurrence (cases : Regex.Cases) (quote text : List Char) : Prop :=
  text = quote ∨ Spells cases (split quote) text

def Occurs (cases : Regex.Cases) (document quote : List Char) : Prop :=
  ∃ text, text <:+: document ∧ IsOccurrence cases quote text

/-- The items of the pattern for these words. -/
def spelling : List (List Char) → List Regex.Item
  | [] => []
  | [w] => Regex.literals w
  | w :: v :: words => Regex.literals w ++ .plus .space :: spelling (v :: words)

section Locate

variable {cases : Regex.Cases} {document quote text : List Char}

theorem intercalate_cons_cons {α : Type} (sep x y : List α) (rest : List (List α)) :
    sep.intercalate (x :: y :: rest) = x ++ (sep ++ sep.intercalate (y :: rest)) := by
  simp [List.intercalate]

/-- The pattern reads as its words with white space between them. -/
theorem parse_pattern (words : List (List Char)) :
    Regex.parse (pattern words) = some (spelling words) := by
  induction words with
  | nil => rfl
  | cons w rest ih =>
      cases rest with
      | nil =>
          have single : pattern [w] = Regex.escape w ++ [] := by
            simp [pattern, List.intercalate]
          rw [single, Regex.parse_escape w (by simp)]
          simp [Regex.parse, Regex.parseFrom, spelling]
      | cons v words =>
          have join : pattern (w :: v :: words) =
              Regex.escape w ++ ('\\' :: 's' :: '+' :: pattern (v :: words)) := by
            rw [pattern, List.map_cons, List.map_cons, intercalate_cons_cons]
            rfl
          rw [join, Regex.parse_escape w (by simp), Regex.parse_spaces, ih]
          rfl

/-- What the pattern matches is what has the words. -/
theorem matches_spelling {words : List (List Char)} (some_word : words ≠ []) :
    Regex.Matches cases.same (spelling words) text ↔ Spells cases words text := by
  induction words generalizing text with
  | nil => exact absurd rfl some_word
  | cons w rest ih =>
      cases rest with
      | nil =>
          have alone : spelling [w] = Regex.literals w ++ [] := (List.append_nil _).symm
          rw [alone, Regex.matches_literals_append]
          constructor
          · rintro ⟨front, back, rfl, spelled, matched⟩
            obtain rfl := Regex.matches_nil_iff.mp matched
            rw [List.append_nil]
            exact .word spelled
          · rintro ⟨spelled⟩
            exact ⟨text, [], (List.append_nil _).symm, spelled, .nil⟩
      | cons v words =>
          rw [spelling, Regex.matches_literals_append]
          constructor
          · rintro ⟨front, back, rfl, spelled, matched⟩
            obtain ⟨gap, rest, rfl, filled, spaces, later⟩ := Regex.matches_plus_iff.mp matched
            exact .more spelled filled spaces ((ih (List.cons_ne_nil v words)).mp later)
          · rintro (_ | ⟨spelled, filled, spaces, later⟩)
            exact ⟨_, _, rfl, spelled, Regex.matches_plus_iff.mpr
              ⟨_, _, rfl, filled, spaces, (ih (List.cons_ne_nil v words)).mpr later⟩⟩

theorem find_sound {i : ℕ} (found : find quote document = some i) :
    ∃ before after, document = before ++ quote ++ after ∧ before.length = i := by
  induction document generalizing i with
  | nil =>
      rw [find] at found
      split at found
      · next empty =>
          cases found
          exact ⟨[], [], by rw [empty]; rfl, rfl⟩
      · cases found
  | cons c rest ih =>
      rw [find] at found
      split at found
      · next front =>
          cases found
          obtain ⟨after, whole⟩ := List.isPrefixOf_iff_prefix.mp front
          exact ⟨[], after, whole.symm, rfl⟩
      · obtain ⟨j, later, rfl⟩ := Option.map_eq_some_iff.mp found
        obtain ⟨before, after, rfl, rfl⟩ := ih later
        exact ⟨c :: before, after, rfl, rfl⟩

theorem find_complete (inside : quote <:+: document) : (find quote document).isSome = true := by
  induction document with
  | nil =>
      rw [find, if_pos (List.infix_nil.mp inside)]
      rfl
  | cons c rest ih =>
      rw [find]
      split
      · rfl
      · next front =>
          rw [Option.isSome_map]
          apply ih
          exact (List.infix_cons_iff.mp inside).resolve_left
            fun begins => front (List.isPrefixOf_iff_prefix.mpr begins)

/-- A quote that does not stand as it is is looked for by its words. -/
theorem locate_of_find_eq_none (absent : find quote document = none) :
    locate cases document quote =
      .ok (if split quote = [] then none
        else (Regex.search cases.same (spelling (split quote)) document).map
          fun found => (found.1, found.1 + found.2)) := by
  rw [locate, absent, parse_pattern]
  dsimp only
  split <;> rfl

theorem locate_total (cases : Regex.Cases) (document quote : List Char) :
    ∃ place, locate cases document quote = .ok place := by
  cases first : find quote document with
  | none => exact ⟨_, locate_of_find_eq_none first⟩
  | some start => exact ⟨some (start, start + quote.length), by rw [locate, first]⟩

/-- What is located is an occurrence. -/
theorem locate_sound {start stop : ℕ}
    (located : locate cases document quote = .ok (some (start, stop))) :
    ∃ before text after, document = before ++ text ++ after ∧ before.length = start ∧
      stop = start + text.length ∧ IsOccurrence cases quote text := by
  cases first : find quote document with
  | some i =>
      rw [locate, first] at located
      cases located
      obtain ⟨before, after, whole, offset⟩ := find_sound first
      exact ⟨before, quote, after, whole, offset, rfl, .inl rfl⟩
  | none =>
      rw [locate_of_find_eq_none first] at located
      have place := Except.ok.inj located
      split at place
      · cases place
      · next words =>
          obtain ⟨⟨i, n⟩, found, same⟩ := Option.map_eq_some_iff.mp place
          cases same
          obtain ⟨before, text, after, whole, offset, length, matched⟩ := Regex.search_sound found
          exact ⟨before, text, after, whole, offset, by rw [length],
            .inr ((matches_spelling words).mp matched)⟩

/-- What is not located does not occur. -/
theorem locate_complete (located : locate cases document quote = .ok none) :
    ¬ Occurs cases document quote := by
  have absent : find quote document = none := by
    cases first : find quote document with
    | none => rfl
    | some i =>
        rw [locate, first] at located
        cases located
  rw [locate_of_find_eq_none absent] at located
  have nowhere := Except.ok.inj located
  rintro ⟨text, inside, rfl | spelled⟩
  · have here := find_complete inside
    rw [absent] at here
    cases here
  · have words : split quote ≠ [] := by
      intro blank
      rw [blank] at spelled
      cases spelled
    obtain ⟨before, after, rfl⟩ := inside
    rw [if_neg words, Option.map_eq_none_iff] at nowhere
    have here : (Regex.search cases.same (spelling (split quote))
        (before ++ text ++ after)).isSome = true :=
      Regex.search_complete ((matches_spelling words).mpr spelled)
    rw [nowhere] at here
    cases here

end Locate

/-! ### Snippets -/

/-- What a snippet says of its quote. -/
structure Places (cases : Regex.Cases) (document : String) (radius : ℕ) (quote : String)
    (s : Snippet) : Prop where
  quote_eq : s.quote = quote
  found_iff : s.found = true ↔ Occurs cases document.toList quote.toList
  window : s.found = true → ∃ start front back, s.start = some start ∧
    document.toList = front ++ (s.before ++ s.match ++ s.after).toList ++ back ∧
    front.length = start - radius ∧ (front ++ s.before.toList).length = start ∧
    IsOccurrence cases quote.toList s.match.toList

section Snippets

variable {cases : Regex.Cases} {document quote : String} {radius : ℕ}

theorem toList_slice (text : List Char) (start stop : ℕ) :
    (slice text start stop).toList = (text.drop start).take (stop - start) :=
  String.toList_ofList

/-- The text around an occurrence, cut from the document. -/
theorem window_eq (before text after : List Char) (radius : ℕ) :
    (slice (before ++ text ++ after) (before.length - radius) before.length).toList =
        before.drop (before.length - radius) ∧
      (slice (before ++ text ++ after) before.length (before.length + text.length)).toList = text ∧
      (slice (before ++ text ++ after) (before.length + text.length)
        (before.length + text.length + radius)).toList = after.take radius := by
  refine ⟨?_, ?_, ?_⟩
  · rw [toList_slice, List.append_assoc, List.drop_append_of_le_length (Nat.sub_le _ _),
      List.take_append_of_le_length (by rw [List.length_drop]), List.take_of_length_le]
    rw [List.length_drop]
  · rw [toList_slice, List.append_assoc, List.drop_left, Nat.add_sub_cancel_left, List.take_left]
  · rw [toList_slice, ← List.length_append, List.drop_left, Nat.add_sub_cancel_left]

theorem snippet_places (cases : Regex.Cases) (document quote : String) (radius : ℕ) :
    ∃ s, snippet cases document.toList radius quote = .ok s ∧
      Places cases document radius quote s := by
  obtain ⟨place, located⟩ := locate_total cases document.toList quote.toList
  cases place with
  | none =>
      refine ⟨⟨quote, false, "", "", "", none⟩, by rw [snippet, located]; rfl, rfl, ?_, nofun⟩
      exact ⟨nofun, fun occurs => absurd occurs (locate_complete located)⟩
  | some place =>
      obtain ⟨start, stop⟩ := place
      refine ⟨_, by rw [snippet, located]; rfl, rfl, ?_, fun _ => ?_⟩
      · obtain ⟨before, text, after, whole, -, -, occurrence⟩ := locate_sound located
        exact iff_of_true rfl ⟨text, ⟨before, after, whole.symm⟩, occurrence⟩
      · obtain ⟨before, text, after, whole, rfl, rfl, occurrence⟩ := locate_sound located
        obtain ⟨left, middle, right⟩ := window_eq before text after radius
        refine ⟨before.length, before.take (before.length - radius), after.drop radius, rfl, ?_,
          ?_, ?_, ?_⟩
        · simp only [String.toList_append, whole, left, middle, right]
          rw [← List.append_assoc, ← List.append_assoc, List.take_append_drop,
            List.append_assoc _ _ (after.drop radius), List.take_append_drop]
        · rw [List.length_take, Nat.min_eq_left (Nat.sub_le _ _)]
        · simp only [whole, left]
          rw [List.take_append_drop]
        · simp only [whole, middle]
          exact occurrence

theorem snippets_places (cases : Regex.Cases) (document : String) (quotes : List String)
    (radius : ℕ) : ∃ located, snippets cases document quotes radius = .ok located ∧
      List.Forall₂ (Places cases document radius) quotes located := by
  choose s cut places using fun quote => snippet_places cases document quote radius
  refine ⟨quotes.map s, ?_, ?_⟩
  · rw [snippets, except_mapM_ok, List.forall₂_map_right_iff]
    exact List.forall₂_same.mpr fun quote _ => cut quote
  · rw [List.forall₂_map_right_iff]
    exact List.forall₂_same.mpr fun quote _ => places quote

/-- The warnings are for what does not occur. -/
theorem mem_missing {quotes : List String} {located : List Snippet}
    (places : List.Forall₂ (Places cases document radius) quotes located) :
    quote ∈ (located.filter fun s => !s.found).map Snippet.quote ↔
      quote ∈ quotes ∧ ¬ Occurs cases document.toList quote.toList := by
  induction places with
  | nil => simp
  | @cons q s _ _ place _ ih =>
      rw [List.filter_cons, List.mem_cons]
      split
      · next missing =>
          have absent : ¬ Occurs cases document.toList q.toList := by
            rw [← place.found_iff]
            simpa using missing
          rw [List.map_cons, List.mem_cons, ih, place.quote_eq, or_and_right]
          constructor
          · rintro (rfl | later)
            · exact .inl ⟨rfl, absent⟩
            · exact .inr later
          · exact Or.imp_left And.left
      · next found =>
          have present : Occurs cases document.toList q.toList := by
            rw [← place.found_iff]
            simpa using found
          rw [ih, or_and_right]
          constructor
          · exact .inr
          · rintro (⟨rfl, absent⟩ | later)
            · exact absurd present absent
            · exact later

/-- A quote is found exactly where it occurs, with the text around it, and warned of exactly
where it does not. -/
theorem snippets_spec (cases : Regex.Cases) (document : String) :
    (∀ (quotes : List String) (radius : ℕ),
      ∃ located, snippets cases document quotes radius = .ok located ∧
        List.Forall₂ (Places cases document radius) quotes located) ∧
    ∀ (field : String) (record : Dict Json) (quotes : List String),
      quotesFor field record = .ok quotes →
      ∃ missing, missingQuotes cases document field record = .ok missing ∧
        ∀ quote, quote ∈ missing ↔
          quote ∈ quotes ∧ ¬ Occurs cases document.toList quote.toList := by
  refine ⟨snippets_places cases document, fun field record quotes cited => ?_⟩
  obtain ⟨located, done, places⟩ := snippets_places cases document quotes defaultRadius
  refine ⟨_, ?_, fun quote => mem_missing places⟩
  exact except_bind_ok.mpr ⟨quotes, cited, except_bind_ok.mpr ⟨located, done, rfl⟩⟩

theorem snippets_spec_title : ∃ missing,
    missingQuotes ⟨Char.toLower, fun _ => []⟩ "a\nfull  DISK (again)" "title"
        [("title", .str "A full disk")] = .ok missing ∧
      ∀ quote, quote ∈ missing ↔ quote ∈ ["A full disk"] ∧
        ¬ Occurs ⟨Char.toLower, fun _ => []⟩ "a\nfull  DISK (again)".toList quote.toList :=
  (snippets_spec ⟨Char.toLower, fun _ => []⟩ "a\nfull  DISK (again)").2 "title"
    [("title", .str "A full disk")] ["A full disk"] (by decide +kernel)

example : snippets ⟨Char.toLower, fun _ => []⟩ "the  Disk\n (full), again" ["disk (FULL)", "a"] 4 =
    .ok [⟨"disk (FULL)", true, "he  ", "Disk\n (full)", ", ag", some 5⟩,
      ⟨"a", true, "l), ", "a", "gain", some 19⟩] := by
  decide +kernel

end Snippets

end IncidentPipeline.Context
