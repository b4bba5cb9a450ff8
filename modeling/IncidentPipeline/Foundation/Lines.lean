import IncidentPipeline.Foundation.Text

/-!
# Lines of a text

A text read line by line up to the first line that a test marks, and what happens to
the reading when lines are broken into parts. White space does not count, and a blank
line is never marked.
-/

namespace Lines

open Python

/-- `text.split("\n")`. -/
def lines (cs : List Char) : List (List Char) := cs.splitOn '\n'

@[simp] theorem lines_nil : lines [] = [[]] := rfl

theorem lines_newline (cs : List Char) : lines ('\n' :: cs) = [] :: lines cs := by
  rw [lines, List.splitOn, List.splitOnP_cons_eq_if_modifyHead]
  rfl

theorem lines_cons {c : Char} (other : c ≠ '\n') (cs : List Char) :
    lines (c :: cs) = (lines cs).modifyHead (c :: ·) := by
  rw [lines, List.splitOn, List.splitOnP_cons_eq_if_modifyHead, if_neg (by simpa using other)]
  rfl

theorem lines_ne_nil (cs : List Char) : lines cs ≠ [] := List.splitOnP_ne_nil _ cs

theorem lines_append_newline (xs ys : List Char) :
    lines (xs ++ '\n' :: ys) = lines xs ++ lines ys := by
  rw [lines, List.splitOn, List.splitOnP_append_cons xs ys (by decide)]
  rfl

theorem lines_of_notMem {cs : List Char} (plain : '\n' ∉ cs) : lines cs = [cs] := by
  induction cs with
  | nil => rfl
  | cons c cs ih =>
      obtain ⟨other, later⟩ := not_or.mp (List.mem_cons.not.mp plain)
      rw [lines_cons (Ne.symm other), ih later]
      rfl

/-- A further character belongs to the last line. -/
theorem lines_append_singleton {c : Char} (other : c ≠ '\n') (cs : List Char) :
    ∃ front last, lines cs = front ++ [last] ∧ lines (cs ++ [c]) = front ++ [last ++ [c]] := by
  induction cs with
  | nil => exact ⟨[], [], rfl, by rw [List.nil_append, lines_cons other]; rfl⟩
  | cons d cs ih =>
      obtain ⟨front, last, before, behind⟩ := ih
      by_cases first : d = '\n'
      · refine ⟨[] :: front, last, ?_, ?_⟩
        · rw [first, lines_newline, before, List.cons_append]
        · rw [first, List.cons_append, lines_newline, behind, List.cons_append]
      · rw [List.cons_append, lines_cons first, lines_cons first, before, behind]
        cases front with
        | nil => exact ⟨[], d :: last, rfl, rfl⟩
        | cons line front => exact ⟨(d :: line) :: front, last, rfl, rfl⟩

theorem flatten_lines_filter (cs : List Char) :
    (lines cs).flatten.filter (!isSpace ·) = cs.filter (!isSpace ·) := by
  have newline : isSpace '\n' = true := by decide
  induction cs with
  | nil => rfl
  | cons c cs ih =>
      by_cases h : c = '\n'
      · rw [h, lines_newline, List.flatten_cons, List.nil_append, ih,
          List.filter_cons_of_neg (by simp [newline])]
      · rw [lines_cons h]
        cases found : lines cs with
        | nil => exact absurd found (lines_ne_nil cs)
        | cons line rest =>
            rw [found] at ih
            rw [List.modifyHead_cons, List.flatten_cons, List.cons_append, List.filter_cons,
              List.filter_cons, ← ih, List.flatten_cons]

/-- The lines of texts joined by newlines. -/
theorem lines_intercalate {texts : List (List Char)} (nonempty : texts ≠ []) :
    lines (['\n'].intercalate texts) = texts.flatMap lines := by
  induction texts with
  | nil => exact absurd rfl nonempty
  | cons text texts ih =>
      cases texts with
      | nil => rw [List.intercalate_singleton, List.flatMap_singleton]
      | cons next texts =>
          rw [List.intercalate_cons_cons, List.append_assoc, List.singleton_append,
            lines_append_newline, ih (List.cons_ne_nil next texts), ← List.flatMap_cons]

theorem filter_intercalate (texts : List (List Char)) :
    (['\n'].intercalate texts).filter (!isSpace ·) = texts.flatten.filter (!isSpace ·) := by
  have newline : ['\n'].filter (!isSpace ·) = [] := by decide
  induction texts with
  | nil => rfl
  | cons text texts ih =>
      cases texts with
      | nil => rw [List.intercalate_singleton, List.flatten_singleton]
      | cons next texts =>
          rw [List.intercalate_cons_cons, List.filter_append, List.filter_append, newline, ih,
            List.append_nil, ← List.filter_append, ← List.flatten_cons]

/-! ### Reading up to a mark -/

variable (mark : List Char → Bool)

/-- What counts of the lines in front of the first marked one. -/
def kept (ls : List (List Char)) : List Char :=
  ((ls.takeWhile fun line => !mark line).flatten).filter (!isSpace ·)

def Blank (line : List Char) : Prop := ∀ c ∈ line, isSpace c = true

instance (line : List Char) : Decidable (Blank line) :=
  inferInstanceAs (Decidable (∀ c ∈ line, isSpace c = true))

/-- Blank lines are not marked. -/
def MarksText : Prop := ∀ line, mark line = true → ¬ Blank line

@[simp] theorem kept_nil : kept mark [] = [] := rfl

theorem kept_cons_of_mark {line : List Char} (marked : mark line = true)
    (rest : List (List Char)) : kept mark (line :: rest) = [] := by
  rw [kept, List.takeWhile_cons_of_neg (by simp [marked])]
  rfl

theorem kept_cons {line : List Char} (unmarked : mark line = false) (rest : List (List Char)) :
    kept mark (line :: rest) = line.filter (!isSpace ·) ++ kept mark rest := by
  rw [kept, List.takeWhile_cons_of_pos (by simp [unmarked]), List.flatten_cons, List.filter_append]
  rfl

theorem filter_eq_nil_iff_blank (line : List Char) :
    line.filter (!isSpace ·) = [] ↔ Blank line := by
  rw [List.filter_eq_nil_iff]
  simp [Blank]

variable {mark}

theorem kept_append {front : List (List Char)} (unmarked : ∀ line ∈ front, mark line = false)
    (rest : List (List Char)) :
    kept mark (front ++ rest) = front.flatten.filter (!isSpace ·) ++ kept mark rest := by
  induction front with
  | nil => rfl
  | cons line front ih =>
      rw [List.cons_append, kept_cons mark (unmarked line (by simp)),
        ih (fun l hl => unmarked l (by simp [hl])), List.flatten_cons, List.filter_append,
        List.append_assoc]

/-- Joining texts by newlines is reading their lines one after another. -/
theorem kept_lines_intercalate (marksText : MarksText mark) (texts : List (List Char)) :
    kept mark (lines (['\n'].intercalate texts)) = kept mark (texts.flatMap lines) := by
  cases texts with
  | nil =>
      have unmarked : mark [] = false := by
        by_contra marked
        exact marksText [] (by simpa using marked) (by simp [Blank])
      exact kept_cons mark unmarked []
  | cons text texts => rw [lines_intercalate (List.cons_ne_nil text texts)]

/-- A rewriting of lines that only touches white space can be left to the test. -/
theorem kept_map {f : List Char → List Char}
    (same : ∀ line, (f line).filter (!isSpace ·) = line.filter (!isSpace ·))
    (ls : List (List Char)) : kept mark (ls.map f) = kept (fun line => mark (f line)) ls := by
  induction ls with
  | nil => rfl
  | cons line ls ih =>
      rw [List.map_cons]
      cases marked : mark (f line) with
      | true =>
          rw [kept_cons_of_mark mark marked, kept_cons_of_mark (fun line => mark (f line)) marked]
      | false =>
          rw [kept_cons mark marked, kept_cons (fun line => mark (f line)) marked, same, ih]

/-! ### Broken lines -/

/-- The lines of a part of a text, and behind them what follows it: the last line of the
part and the first line behind it are parts of one line. -/
def attach : List (List Char) → List (List (List Char)) → List (List (List Char))
  | [], back => back
  | [last], [] => [[last]]
  | [last], first :: back => (last :: first) :: back
  | line :: next :: more, back => [line] :: attach (next :: more) back

/-- The lines of a text that is given in parts, each line in its parts. -/
def brokenLines : List (List Char) → List (List (List Char))
  | [] => []
  | part :: parts => attach (lines part) (brokenLines parts)

theorem attach_flatten (ls : List (List Char)) (back : List (List (List Char))) :
    (attach ls back).flatten = ls ++ back.flatten := by
  fun_induction attach ls back with
  | case1 back => rfl
  | case2 last => rfl
  | case3 last first back => rfl
  | case4 line next more back ih =>
      rw [List.flatten_cons, ih]
      rfl

/-- Broken, the lines are those of the parts. -/
theorem brokenLines_flatten (parts : List (List Char)) :
    (brokenLines parts).flatten = parts.flatMap lines := by
  induction parts with
  | nil => rfl
  | cons part parts ih => rw [brokenLines, attach_flatten, ih, List.flatMap_cons]

theorem attach_modifyHead (c : Char) {ls : List (List Char)} (nonempty : ls ≠ [])
    (back : List (List (List Char))) :
    (attach (ls.modifyHead (c :: ·)) back).map List.flatten =
      ((attach ls back).map List.flatten).modifyHead (c :: ·) := by
  fun_cases attach ls back with
  | case1 back => exact absurd rfl nonempty
  | case2 last => rfl
  | case3 last first back => rfl
  | case4 line next more back => rfl

theorem attach_map_flatten (part text : List Char) {back : List (List (List Char))}
    (rest : back.map List.flatten = lines text) :
    (attach (lines part) back).map List.flatten = lines (part ++ text) := by
  induction part with
  | nil =>
      cases back with
      | nil => exact absurd rest.symm (lines_ne_nil text)
      | cons first back => exact rest
  | cons c part ih =>
      by_cases h : c = '\n'
      · rw [h, lines_newline, List.cons_append, lines_newline, ← ih]
        cases found : lines part with
        | nil => exact absurd found (lines_ne_nil part)
        | cons line more => rfl
      · rw [lines_cons h, List.cons_append, lines_cons h, ← ih,
          attach_modifyHead c (lines_ne_nil part)]

/-- Put together again, the lines are those of the whole text. -/
theorem brokenLines_map_flatten {parts : List (List Char)} (nonempty : parts ≠ []) :
    (brokenLines parts).map List.flatten = lines parts.flatten := by
  induction parts with
  | nil => exact absurd rfl nonempty
  | cons part parts ih =>
      cases parts with
      | nil =>
          rw [brokenLines, brokenLines, List.flatten_singleton]
          have single : ∀ ls : List (List Char), (attach ls []).map List.flatten = ls := by
            intro ls
            induction ls with
            | nil => rfl
            | cons line ls ihl =>
                cases ls with
                | nil => simp [attach]
                | cons next ls => rw [attach, List.map_cons, ihl, List.flatten_singleton]
          exact single (lines part)
      | cons next parts =>
          rw [brokenLines, List.flatten_cons]
          exact attach_map_flatten part _ (ih (List.cons_ne_nil next parts))

/-- Breaking lines changes nothing that counts: up to the first marked line no part is marked,
and of that line the first part that is not blank is. -/
def Survives (mark : List Char → Bool) : List (List (List Char)) → Prop
  | [] => True
  | parts :: rest =>
      if mark parts.flatten then
        ∃ part ∈ (parts.dropWhile fun part => decide (Blank part)).head?, mark part = true
      else (∀ part ∈ parts, mark part = false) ∧ Survives mark rest

instance (mark : List Char → Bool) : ∀ pieces, Decidable (Survives mark pieces)
  | [] => isTrue trivial
  | parts :: rest =>
      have : Decidable (Survives mark rest) := instDecidableSurvives mark rest
      inferInstanceAs (Decidable (if mark parts.flatten then
        ∃ part ∈ (parts.dropWhile fun part => decide (Blank part)).head?, mark part = true
      else (∀ part ∈ parts, mark part = false) ∧ Survives mark rest))

/-- The lines of texts in parts, put together. -/
theorem flatMap_brokenLines {texts : List (List (List Char))}
    (filled : ∀ parts ∈ texts, parts ≠ []) :
    (texts.flatMap brokenLines).map List.flatten = (texts.map List.flatten).flatMap lines := by
  induction texts with
  | nil => rfl
  | cons parts texts ih =>
      rw [List.flatMap_cons, List.map_append, List.map_cons, List.flatMap_cons,
        brokenLines_map_flatten (filled parts List.mem_cons_self),
        ih fun p hp => filled p (List.mem_cons_of_mem _ hp)]

/-- The lines of texts in parts, broken. -/
theorem flatten_flatMap_brokenLines (texts : List (List (List Char))) :
    (texts.flatMap brokenLines).flatten = texts.flatten.flatMap lines := by
  induction texts with
  | nil => rfl
  | cons parts texts ih =>
      rw [List.flatMap_cons, List.flatten_append, List.flatten_cons, List.flatMap_append,
        brokenLines_flatten, ih]

/-- In front of a text of its own, nothing is kept if and only if the first part that is not
blank is marked. -/
theorem kept_eq_nil_iff (marksText : MarksText mark) {parts : List (List Char)}
    (text : ¬ Blank parts.flatten) (rest : List (List Char)) :
    kept mark (parts ++ rest) = [] ↔
      ∃ part ∈ (parts.dropWhile fun part => decide (Blank part)).head?, mark part = true := by
  induction parts with
  | nil => exact absurd (by simp [Blank]) text
  | cons part parts ih =>
      by_cases blank : Blank part
      · have unmarked : mark part = false := by
          by_contra marked
          exact marksText part (by simpa using marked) blank
        have later : ¬ Blank parts.flatten := by
          intro all
          apply text
          intro c hc
          rw [List.flatten_cons, List.mem_append] at hc
          exact hc.elim (blank c) (all c)
        rw [List.cons_append, kept_cons mark unmarked, (filter_eq_nil_iff_blank part).mpr blank,
          List.nil_append, ih later, List.dropWhile_cons_of_pos (by simpa using blank)]
      · rw [List.dropWhile_cons_of_neg (by simpa using blank), List.cons_append]
        simp only [List.head?_cons, Option.mem_def, Option.some.injEq, exists_eq_left']
        cases marked : mark part with
        | true => simp [kept_cons_of_mark mark marked]
        | false =>
            rw [kept_cons mark marked, List.append_eq_nil_iff, filter_eq_nil_iff_blank]
            simp [blank]

/-- A marked part cuts the text of its line short. -/
theorem kept_shorter (marksText : MarksText mark) {parts : List (List Char)} {part : List Char}
    (member : part ∈ parts) (marked : mark part = true) (rest : List (List Char)) :
    (kept mark (parts ++ rest)).length < (parts.flatten.filter (!isSpace ·)).length := by
  induction parts with
  | nil => cases member
  | cons first parts ih =>
      rw [List.cons_append, List.flatten_cons, List.filter_append, List.length_append]
      cases here : mark first with
      | true =>
          have text : first.filter (!isSpace ·) ≠ [] := fun none =>
            marksText first here ((filter_eq_nil_iff_blank first).mp none)
          have := List.length_pos_iff.mpr text
          rw [kept_cons_of_mark mark here, List.length_nil]
          omega
      | false =>
          obtain rfl | later := List.mem_cons.mp member
          · rw [here] at marked
            cases marked
          · have := ih later
            rw [kept_cons mark here, List.length_append]
            omega

/-- Reading a text whose lines are broken keeps what reading the text keeps, if and only if
the text survives. -/
theorem kept_broken_iff (marksText : MarksText mark) (pieces : List (List (List Char))) :
    kept mark pieces.flatten = kept mark (pieces.map List.flatten) ↔ Survives mark pieces := by
  induction pieces with
  | nil => simp [Survives]
  | cons parts rest ih =>
      rw [List.flatten_cons, List.map_cons, Survives]
      cases whole : mark parts.flatten with
      | true =>
          rw [kept_cons_of_mark mark whole, if_pos rfl,
            kept_eq_nil_iff marksText (marksText _ whole)]
      | false =>
          rw [kept_cons mark whole, if_neg (by simp)]
          by_cases unmarked : ∀ part ∈ parts, mark part = false
          · rw [kept_append unmarked, List.append_cancel_left_eq, ih]
            exact (and_iff_right unmarked).symm
          · constructor
            · intro same
              push Not at unmarked
              obtain ⟨part, member, marked⟩ := unmarked
              have shorter := kept_shorter marksText member (by simpa using marked) rest.flatten
              rw [same, List.length_append] at shorter
              omega
            · exact fun survives => absurd survives.1 unmarked

end Lines
