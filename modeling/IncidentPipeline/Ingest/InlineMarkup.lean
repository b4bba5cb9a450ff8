import IncidentPipeline.Ingest.Parse

/-!
# Inline markup and the extracted text

`_parse_html` joins the texts of the chosen element with newlines, so an inline element
puts its phrase on a line of its own. What is not white space comes through the two
rewrites; the truncation, which looks at lines, is where the markup shows.
-/

namespace IncidentPipeline

open Python Lines Markup

/-! ### What the rewrites keep -/

/-- The lines of a text without white space at their ends, as far as anything is left. -/
def core (ls : List (List Char)) : List (List Char) :=
  (ls.map stripChars).filter (· ≠ [])

@[simp] theorem core_append (ls ms : List (List Char)) : core (ls ++ ms) = core ls ++ core ms := by
  rw [core, List.map_append, List.filter_append, core, core]

theorem core_nil_cons (ls : List (List Char)) : core ([] :: ls) = core ls := rfl

theorem core_modifyHead {c : Char} (space : isSpace c = true) (ls : List (List Char)) :
    core (ls.modifyHead (c :: ·)) = core ls := by
  cases ls with
  | nil => rfl
  | cons line ls =>
      rw [List.modifyHead_cons, core, List.map_cons, stripChars_cons space, ← List.map_cons, ← core]

/-- White space in front leaves the core alone. -/
theorem core_lines_blank {front : List Char} (blank : Blank front) (text : List Char) :
    core (lines (front ++ text)) = core (lines text) := by
  induction front with
  | nil => rfl
  | cons c front ih =>
      have later : core (lines (front ++ text)) = core (lines text) :=
        ih fun d hd => blank d (List.mem_cons_of_mem _ hd)
      by_cases newline : c = '\n'
      · rw [newline, List.cons_append, lines_newline, core_nil_cons, later]
      · have space := blank c List.mem_cons_self
        rw [List.cons_append, lines_cons newline, core_modifyHead space, later]

/-- Texts that have the same core behind every text. -/
def Alike (xs ys : List Char) : Prop :=
  ∀ front, core (lines (front ++ xs)) = core (lines (front ++ ys))

theorem Alike.cons {xs ys : List Char} (alike : Alike xs ys) (c : Char) :
    Alike (c :: xs) (c :: ys) := by
  intro front
  have := alike (front ++ [c])
  rwa [List.append_assoc, List.append_assoc, List.singleton_append] at this

theorem Alike.trans {xs ys zs : List Char} (first : Alike xs ys) (second : Alike ys zs) :
    Alike xs zs := fun front => (first front).trans (second front)

/-- Blank lines are not in the core. -/
theorem alike_blank_lines {between : List Char} (blank : Blank between) (text : List Char) :
    Alike ('\n' :: '\n' :: text) ('\n' :: (between ++ '\n' :: text)) := by
  intro front
  rw [lines_append_newline, lines_append_newline, core_append, core_append,
    core_lines_blank blank, lines_newline]

/-- Where the pattern of paragraph breaks matches, what it takes is blank and ends with a
newline. -/
theorem breakLength_spec {cs : List Char} (found : '\n' ∈ cs.takeWhile isSpace) :
    ∃ between, Blank between ∧ cs = between ++ '\n' :: cs.drop (breakLength cs) := by
  set run := cs.takeWhile isSpace with hrun
  set tail := (run.reverse.takeWhile (· ≠ '\n')).length with htail
  have shorter : tail < run.length := by
    have bound : tail ≤ run.reverse.length := (List.takeWhile_prefix _).length_le
    rw [List.length_reverse] at bound
    apply lt_of_le_of_ne bound
    intro all
    have whole : run.reverse.takeWhile (· ≠ '\n') = run.reverse :=
      (List.takeWhile_prefix _).eq_of_length (by rw [List.length_reverse, ← all])
    have member : '\n' ∈ run.reverse.takeWhile (· ≠ '\n') := by
      rw [whole]
      exact List.mem_reverse.mpr found
    simpa using List.mem_takeWhile_imp member
  have length : breakLength cs = run.length - tail := rfl
  have last : run[breakLength cs - 1]? = some '\n' := by
    have mirror : run.length - 1 - tail = breakLength cs - 1 := by omega
    have stop := List.getElem?_eq_getElem (l := run.reverse) (i := tail)
      (by rw [List.length_reverse]; exact shorter)
    have kind := read_behind_takeWhile stop
    rw [List.getElem?_reverse shorter, mirror] at stop
    rw [stop]
    simpa using kind
  have prefixRun : run <+: cs := List.takeWhile_prefix isSpace
  have read : cs[breakLength cs - 1]? = some '\n' := by
    obtain ⟨bound, same⟩ := List.getElem?_eq_some_iff.mp last
    rw [← same, prefixRun.getElem bound, List.getElem?_eq_getElem]
  refine ⟨cs.take (breakLength cs - 1), ?_, ?_⟩
  · intro c hc
    obtain ⟨i, hi, rfl⟩ := List.mem_iff_getElem.mp hc
    rw [List.length_take] at hi
    obtain ⟨d, again, space⟩ := @read_takeWhile _ isSpace cs i (by rw [← hrun]; omega)
    rw [List.getElem_take]
    rw [List.getElem?_eq_getElem (by omega)] at again
    rwa [Option.some.inj again]
  · obtain ⟨bound, same⟩ := List.getElem?_eq_some_iff.mp read
    have next : breakLength cs - 1 + 1 = breakLength cs := by omega
    conv_lhs => rw [← List.take_append_drop (breakLength cs - 1) cs]
    rw [List.drop_eq_getElem_cons bound, same, next]

theorem squeezeFrom_drop (skip : ℕ) (cs : List Char) :
    squeezeFrom skip cs = squeezeFrom 0 (cs.drop skip) := by
  induction cs generalizing skip with
  | nil => rw [List.drop_nil, squeezeFrom, squeezeFrom]
  | cons c cs ih =>
      cases skip with
      | zero => rfl
      | succ skip => rw [squeezeFrom, ih, List.drop_succ_cons]

/-- Squeezing paragraph breaks only removes blank lines. -/
theorem squeeze_alike (cs : List Char) : Alike (squeezeFrom 0 cs) cs := by
  induction size : cs.length using Nat.strong_induction_on generalizing cs with
  | h n ih =>
      cases cs with
      | nil => exact fun _ => rfl
      | cons c cs =>
          rw [List.length_cons] at size
          rw [squeezeFrom]
          split
          · next found =>
              obtain ⟨rfl, newline⟩ := found
              obtain ⟨between, blank, split⟩ := breakLength_spec newline
              have rest := ih (cs.drop (breakLength cs)).length
                (by rw [List.length_drop]; omega) _ rfl
              rw [squeezeFrom_drop]
              have squeezed := (rest.cons '\n').cons '\n'
              have restored := squeezed.trans (alike_blank_lines blank _)
              rwa [← split] at restored
          · exact (ih cs.length (by omega) cs rfl).cons c

/-- White space behind a text stays on its last line. -/
theorem core_lines_append_singleton {c : Char} (space : isSpace c = true) (text : List Char) :
    core (lines (text ++ [c])) = core (lines text) := by
  by_cases newline : c = '\n'
  · rw [newline, lines_append_newline, core_append]
    exact List.append_nil _
  · obtain ⟨front, last, before, behind⟩ := lines_append_singleton newline text
    have same : core [last ++ [c]] = core [last] := by
      rw [core, core, List.map_singleton, List.map_singleton, stripChars_append_singleton space]
    rw [before, behind, core_append, core_append, same]

theorem core_lines_trailing {back : List Char} (blank : Blank back) (text : List Char) :
    core (lines (text ++ back)) = core (lines text) := by
  induction back generalizing text with
  | nil => rw [List.append_nil]
  | cons c back ih =>
      have further := ih (fun d hd => blank d (List.mem_cons_of_mem _ hd)) (text ++ [c])
      rw [List.append_assoc, List.singleton_append] at further
      rw [further, core_lines_append_singleton (blank c List.mem_cons_self)]

theorem core_lines_stripChars (text : List Char) :
    core (lines (stripChars text)) = core (lines text) := by
  have leading := @core_lines_blank (text.takeWhile isSpace)
    (fun c hc => List.mem_takeWhile_imp hc) (text.dropWhile isSpace)
  rw [List.takeWhile_append_dropWhile] at leading
  set rest := text.dropWhile isSpace with hrest
  have trailing := @core_lines_trailing (rest.reverse.takeWhile isSpace).reverse
    (fun c hc => List.mem_takeWhile_imp (List.mem_reverse.mp hc)) (stripChars text)
  have whole : stripChars text ++ (rest.reverse.takeWhile isSpace).reverse = rest := by
    rw [stripChars, ← hrest, ← List.reverse_append, List.takeWhile_append_dropWhile,
      List.reverse_reverse]
  rw [leading, ← trailing, whole]

/-! ### Runs of blanks -/

theorem isBlank_isSpace {c : Char} (blank : isBlank c = true) : isSpace c = true := by
  rw [isBlank, Bool.or_eq_true, decide_eq_true_eq, decide_eq_true_eq] at blank
  obtain rfl | rfl := blank
  · decide
  · decide

theorem filter_collapseBlanks (cs : List Char) :
    (collapseBlanks cs).filter (!isSpace ·) = cs.filter (!isSpace ·) := by
  induction cs with
  | nil => rfl
  | cons c cs ih =>
      rw [collapseBlanks]
      split
      · next blank =>
          have space := isBlank_isSpace blank
          rw [List.filter_cons_of_neg (by simp [space])]
          split
          · exact ih
          · rw [List.filter_cons_of_neg (by decide), ih]
      · rw [List.filter_cons, List.filter_cons, ih]

/-- The first line starts as the text does. -/
theorem head_lines {cs line : List Char} {rest : List (List Char)}
    (found : lines cs = line :: rest) : line.head?.any isBlank = cs.head?.any isBlank := by
  cases cs with
  | nil =>
      obtain ⟨rfl, -⟩ := List.cons.inj found
      rfl
  | cons c cs =>
      by_cases newline : c = '\n'
      · rw [newline, lines_newline] at found
        obtain ⟨rfl, -⟩ := List.cons.inj found
        rw [newline]
        rfl
      · rw [lines_cons newline] at found
        cases later : lines cs with
        | nil => exact absurd later (lines_ne_nil cs)
        | cons l ls =>
            rw [later, List.modifyHead_cons] at found
            obtain ⟨rfl, -⟩ := List.cons.inj found
            rfl

/-- Blanks collapse line by line. -/
theorem lines_collapseBlanks (cs : List Char) :
    lines (collapseBlanks cs) = (lines cs).map collapseBlanks := by
  induction cs with
  | nil => rfl
  | cons c cs ih =>
      by_cases newline : c = '\n'
      · rw [newline, collapseBlanks, if_neg (by decide), lines_newline, lines_newline, ih]
        rfl
      · rw [lines_cons newline, collapseBlanks]
        cases found : lines cs with
        | nil => exact absurd found (lines_ne_nil cs)
        | cons line rest =>
            rw [found] at ih
            rw [List.modifyHead_cons, List.map_cons, collapseBlanks, head_lines found]
            split
            · split
              · exact ih
              · rw [lines_cons (by decide), ih]
                rfl
            · rw [lines_cons newline, ih]
              rfl

/-! ### What the truncation looks at -/

/-- A line of the joined texts that ends the document. -/
def endsDocument (line : List Char) : Bool := isTailMarker (collapseBlanks line)

theorem stripChars_eq_nil_iff (line : List Char) : stripChars line = [] ↔ Blank line := by
  rw [← filter_eq_nil_iff_blank, ← filter_stripChars, filter_eq_nil_iff_blank]
  constructor
  · intro empty
    rw [empty]
    exact fun _ none => absurd none List.not_mem_nil
  · intro blank
    have trimmed := (trimmed_stripChars line).1
    cases found : stripChars line with
    | nil => rfl
    | cons c rest =>
        rw [found] at trimmed blank
        have solid := trimmed c rfl
        rw [blank c List.mem_cons_self] at solid
        cases solid

theorem isTailMarker_of_blank {line : List Char} (blank : Blank line) :
    isTailMarker line = false := by
  rw [isTailMarker, (stripChars_eq_nil_iff line).mpr blank]
  decide

theorem isTailMarker_stripChars (line : List Char) :
    isTailMarker (stripChars line) = isTailMarker line := by
  rw [isTailMarker, isTailMarker, stripChars_of_trimmed (trimmed_stripChars line)]

theorem marksText_endsDocument : MarksText endsDocument := by
  intro line marked blank
  have collapsed : Blank (collapseBlanks line) := by
    rw [← filter_eq_nil_iff_blank, filter_collapseBlanks, filter_eq_nil_iff_blank]
    exact blank
  rw [endsDocument, isTailMarker_of_blank collapsed] at marked
  cases marked

/-- The truncation reads the core. -/
theorem kept_core (ls : List (List Char)) : kept isTailMarker (core ls) = kept isTailMarker ls := by
  induction ls with
  | nil => rfl
  | cons line ls ih =>
      by_cases blank : Blank line
      · have empty := (stripChars_eq_nil_iff line).mpr blank
        rw [kept_cons _ (isTailMarker_of_blank blank), (filter_eq_nil_iff_blank line).mpr blank,
          List.nil_append, ← ih, core, List.map_cons, empty]
        rfl
      · have text : stripChars line ≠ [] := fun empty =>
          blank ((stripChars_eq_nil_iff line).mp empty)
        have first : core (line :: ls) = stripChars line :: core ls := by
          rw [core, List.map_cons, List.filter_cons_of_pos (by simpa using text), ← core]
        rw [first]
        have same := isTailMarker_stripChars line
        cases marked : isTailMarker line with
        | true =>
            rw [kept_cons_of_mark _ marked, kept_cons_of_mark _ (same.trans marked)]
        | false =>
            rw [kept_cons _ marked, kept_cons _ (same.trans marked), filter_stripChars, ih]

theorem linesBeforeMarker_spec (ls : List (List Char)) :
    match linesBeforeMarker ls with
    | some front => kept isTailMarker ls = front.flatten.filter (!isSpace ·)
    | none => kept isTailMarker ls = ls.flatten.filter (!isSpace ·) := by
  induction ls with
  | nil => rfl
  | cons line ls ih =>
      rw [linesBeforeMarker]
      cases marked : isTailMarker line with
      | true => exact kept_cons_of_mark _ marked ls
      | false =>
          rw [if_neg (by simp), kept_cons _ marked, List.flatten_cons, List.filter_append]
          cases found : linesBeforeMarker ls with
          | none =>
              rw [found] at ih
              exact congrArg _ ih
          | some front =>
              rw [found] at ih
              simp only [Option.map_some, List.flatten_cons, List.filter_append]
              exact congrArg _ ih

/-- The characters that come through: those of the lines in front of the first marker. -/
theorem filter_truncateAtTailMarker (text : List Char) :
    (truncateAtTailMarker text).filter (!isSpace ·) = kept isTailMarker (lines text) := by
  have spec := linesBeforeMarker_spec (lines text)
  rw [truncateAtTailMarker]
  cases found : linesBeforeMarker (lines text) with
  | none =>
      rw [found] at spec
      exact (spec.trans (flatten_lines_filter text)).symm
  | some front =>
      rw [found] at spec
      simp only at spec ⊢
      rw [filter_stripChars, filter_intercalate, spec]

theorem filter_tidy (text : List Char) :
    (tidy text).filter (!isSpace ·) = kept endsDocument (lines text) := by
  have squeezed := squeeze_alike (collapseBlanks text) []
  rw [List.nil_append, List.nil_append] at squeezed
  rw [tidy, filter_truncateAtTailMarker, ← kept_core, core_lines_stripChars, squeezed, kept_core,
    lines_collapseBlanks, kept_map filter_collapseBlanks]
  rfl

/-! ### The chosen element -/

/-- An element that neither the removal of chrome nor the choice of the element looks for. -/
def Inline (tag : Tag) : Prop :=
  tag.name ∉ chromeTags ∧ tag.name ∉ ["article", "main"] ∧ tag.name ∉ ["body"]

def partsLength (parts : List (List Char)) : ℕ := parts.flatten.length

/-- Wrapping a phrase leaves the choice of the element alone, and its texts up to parts. -/
theorem breaks_mainContent (s : Selected) {tag : Tag} (inline : Inline tag) :
    Breaks (mainContent partsLength s.marked) (mainContent List.length (s.wrapped tag)) := by
  obtain ⟨-, notArticle, notBody⟩ := inline
  have articles := s.findAll_wrapped notArticle
  have bodies := s.findAll_wrapped notBody
  rw [mainContent, mainContent]
  generalize s.marked.findAll ["article", "main"] = ms at articles ⊢
  generalize (s.wrapped tag).findAll ["article", "main"] = fs at articles ⊢
  cases articles with
  | cons first others =>
      refine firstMax_rel (fun _ _ breaks => breaks.textLength) first.2 ?_
      apply List.forall₂_map_left_iff.mpr
      apply List.forall₂_map_right_iff.mpr
      exact others.imp fun _ _ same => same.2
  | nil =>
      generalize s.marked.findAll ["body"] = ms at bodies ⊢
      generalize (s.wrapped tag).findAll ["body"] = fs at bodies ⊢
      cases bodies with
      | cons first others => exact first.2
      | nil => exact s.breaks_wrapped tag

/-- The choice depends on the lengths of the texts only. -/
theorem mainContent_map {α β : Type} (size : β → ℕ) (g : α → β) (f : Forest α) :
    mainContent size (f.map g) = (mainContent (fun content => size (g content)) f).map g := by
  have length : ∀ (a : Forest α) (b : Forest β), b = a.map g →
      a.textLength (fun content => size (g content)) = b.textLength size := by
    rintro a b rfl
    rw [Forest.textLength, Forest.textLength, Forest.strings_map, List.map_map]
    rfl
  rw [mainContent, mainContent, Forest.findAll_map, Forest.findAll_map]
  cases f.findAll ["article", "main"] with
  | cons first others =>
      refine @firstMax_rel _ _ _ _ (fun (a : Forest α) (b : Forest β) => b = a.map g) length
        first.2 (first.2.map g) (others.map Prod.snd) _ rfl ?_
      rw [List.map_map]
      apply List.forall₂_map_left_iff.mpr
      apply List.forall₂_map_right_iff.mpr
      exact List.forall₂_same.mpr fun _ _ => rfl
  | nil =>
      cases f.findAll ["body"] with
      | cons first others => rfl
      | nil => rfl

theorem mainContent_strings {α : Type} (size : α → ℕ) (f : Forest α) :
    ∀ content ∈ (mainContent size f).strings, content ∈ f.strings := by
  rw [mainContent]
  split
  · next first others found =>
      have chosen := firstMax_mem (Forest.textLength size) first.2 (others.map Prod.snd)
      rw [← List.map_cons, List.mem_map] at chosen
      obtain ⟨element, member, same⟩ := chosen
      rw [← same]
      exact Forest.strings_subset (found ▸ member)
  · split
    · next body others found =>
        exact Forest.strings_subset (found ▸ List.mem_cons_self)
    · exact fun content member => member

/-! ### The two runs -/

/-- The characters of a text that are not white space. -/
def solidText (text : String) : List Char := text.toList.filter (!isSpace ·)

/-- The lines of the chosen element, those in which the phrase starts or stops in parts. -/
def selectedLines (s : Selected) : List (List (List Char)) :=
  (mainContent partsLength s.marked).strings.flatMap brokenLines

theorem solidText_parseSoup {soup : Forest (List Char)} (bare : soup.findAll chromeTags = []) :
    solidText (parseSoup soup).text =
      kept endsDocument ((mainContent List.length soup).strings.flatMap lines) := by
  rw [solidText, parseSoup, String.toList_ofList, filter_tidy, Forest.decompose_of_absent bare,
    getText, kept_lines_intercalate marksText_endsDocument]

/-- When wrapping a phrase of a document without chrome in an inline element leaves the extracted
text alone, white space apart: where no line that ends the document arises from the parts of a
line in front of the first one, and that one survives. -/
theorem inline_markup_iff (s : Selected) {tag : Tag} (inline : Inline tag)
    (bare : s.plain.findAll chromeTags = []) :
    solidText (parseSoup (s.wrapped tag)).text = solidText (parseSoup s.plain).text ↔
      Survives endsDocument (selectedLines s) := by
  have none : s.marked.findAll chromeTags = [] := by
    rw [Selected.plain, Forest.findAll_map, List.map_eq_nil_iff] at bare
    exact bare
  have wrapped : (s.wrapped tag).findAll chromeTags = [] := by
    have same := s.findAll_wrapped inline.1
    rw [none] at same
    exact List.forall₂_nil_left_iff.mp same
  have filled : ∀ parts ∈ (mainContent partsLength s.marked).strings, parts ≠ [] := by
    intro parts member
    exact s.filled_marked parts (mainContent_strings partsLength s.marked parts member)
  have broken := breaks_mainContent s inline
  rw [Breaks] at broken
  have whole : mainContent List.length s.plain =
      (mainContent partsLength s.marked).map List.flatten := mainContent_map _ _ _
  rw [solidText_parseSoup wrapped, solidText_parseSoup bare, broken, whole, Forest.strings_map,
    selectedLines, ← kept_broken_iff marksText_endsDocument, flatten_flatMap_brokenLines,
    flatMap_brokenLines filled]

/-- A page with one paragraph, in which `phrase` is selected. -/
def onePage (before phrase after : String) : Selected :=
  .inside ⟨"html", []⟩ (.inside ⟨"body", []⟩ (.inside ⟨"p", []⟩
    (.phrase before.toList (.text phrase.toList .nil) after.toList .nil) .nil) .nil) .nil

theorem inline_markup_status_page :
    solidText (parseSoup ((onePage "See our " "status page" " now.").wrapped ⟨"a", []⟩)).text =
      solidText (parseSoup (onePage "See our " "status page" " now.").plain).text :=
  (@inline_markup_iff (onePage "See our " "status page" " now.") ⟨"a", []⟩
    (by unfold Inline; decide) (by decide)).mpr (by decide)

/-- Linked words of a sentence end the document. -/
theorem linked_words_truncate :
    (parseSoup (onePage "See our " "related posts" " for more.").plain).text =
        "See our related posts for more." ∧
      (parseSoup ((onePage "See our " "related posts" " for more.").wrapped ⟨"a", []⟩)).text =
        "See our" ∧
      solidText "See our" ≠ solidText "See our related posts for more." := by decide

end IncidentPipeline
