import IncidentPipeline.Foundation.Browser
import IncidentPipeline.Review.Selection

/-!
# Find in source

Each candidate on the review page carries its offsets, and a script cuts that span out of
the text of the source panel. The offsets count code points of the document; the script
counts code units of what the parser made of it. The two agree where as many characters
outside the Basic Multilingual Plane as line ends `\r\n` come first.
-/

namespace IncidentPipeline

open Python Spans Browser

/-- `pre.textContent` of the source panel, whose source is the escaped document. -/
def pageText (document : String) : List ℕ := units (preContent document.toList)

/-- What the handler of `data-locate` puts into the highlighted span. -/
def highlighted (document : String) (c : Candidate) : List ℕ :=
  Browser.slice (pageText document) c.start c.end

/-- What the handler leaves in front of the span. -/
def beforeHighlight (document : String) (c : Candidate) : List ℕ :=
  Browser.slice (pageText document) 0 c.start

/-- The document in front of the candidate. -/
def leading (document : String) (c : Candidate) : List Char := document.toList.take c.start

/-- By how many code units the candidate's place in the page is behind its offset. -/
def shift (document : String) (c : Candidate) : ℤ :=
  (leading document c).countP isAstral - countPairs (leading document c) -
    leadingNewline (leading document c)

/-- Every character of the text reaches the script as one code unit of its own. -/
def OneUnitEach (text : String) : Prop :=
  ∀ c ∈ text.toList, c ≠ '\r' ∧ isAstral c = false

/-- Over the length of the candidate, the page reads the same at the candidate's offset as
at its place. -/
def Repeats (document : String) (c : Candidate) : Prop :=
  ∀ k < c.text.length, (pageText document)[c.start + k]? =
    (pageText document)[((c.start : ℤ) + shift document c).toNat + k]?

/-- A candidate cuts the document in three, and its own text starts with a solid character. -/
theorem candidate_splits {cues : List Cue} {document : String} {c : Candidate}
    (member : c ∈ chooseCandidates cues document) :
    ∃ back, document.toList = leading document c ++ (c.text.toList ++ back) ∧
      c.start = (leading document c).length ∧ c.end = c.start + c.text.toList.length ∧
      ∃ first rest, c.text.toList = first :: rest ∧ isSpace first = false := by
  obtain ⟨index, -, rfl⟩ := (mem_chooseCandidates cues document).mp member
  have hp := List.get_mem (passages document windowChars) index
  obtain ⟨s, hs, same⟩ := List.mem_map.mp hp
  rw [← same]
  have proper := (passageSpans_ascending document windowChars).nonempty s hs
  obtain ⟨⟨first, read, solid⟩, -, inside⟩ := tight_of_mem_passageSpans hs
  have text : (Candidate.ofPassage cues (Passage.ofSpan document s)).text.toList =
      s.slice document.toList := String.toList_ofList
  have length := Span.length_slice inside
  rw [text]
  refine ⟨document.toList.drop s.stop, ?_, ?_, ?_, ?_⟩
  · have whole : s.slice document.toList ++ document.toList.drop s.stop =
        document.toList.drop s.start := by
      have stop : s.start + (s.stop - s.start) = s.stop := by omega
      rw [Span.slice, ← stop, ← List.drop_drop, Nat.add_sub_cancel_left,
        List.take_append_drop]
    rw [whole]
    exact (List.take_append_drop s.start document.toList).symm
  · change s.start = (document.toList.take s.start).length
    rw [List.length_take]
    omega
  · change s.stop = s.start + _
    omega
  · have head : (s.slice document.toList)[0]? = some first := by
      rw [Span.slice_getElem? _ _ (by omega), Nat.add_zero]
      exact read
    rw [← List.head?_eq_getElem?] at head
    obtain ⟨rest, starts⟩ := List.head?_eq_some_iff.mp head
    exact ⟨first, rest, starts, solid⟩

/-- The page behind what stands in front of the candidate. -/
theorem pageText_eq {cues : List Cue} {document : String} {c : Candidate}
    (member : c ∈ chooseCandidates cues document) :
    ∃ back, pageText document =
      units (preContent (leading document c)) ++
        units (normalizeNewlines (c.text.toList ++ back)) := by
  obtain ⟨back, split, -, -, first, rest, starts, solid⟩ := candidate_splits member
  refine ⟨back, ?_⟩
  have head : (c.text.toList ++ back).head? = some first := by
    rw [starts]
    rfl
  rw [pageText, split, preContent_append, units_append]
  · rw [head]
    rintro ⟨⟩
    exact absurd solid (by decide)
  · rw [head]
    rintro ⟨⟩
    exact absurd solid (by decide)

/-- The candidate's place in the page, by code units. -/
theorem place_eq {cues : List Cue} {document : String} {c : Candidate}
    (member : c ∈ chooseCandidates cues document) :
    ((units (preContent (leading document c))).length : ℤ) = c.start + shift document c := by
  obtain ⟨-, -, start, -⟩ := candidate_splits member
  have counted := length_units_preContent (leading document c)
  rw [start, shift]
  omega

theorem length_units_of_oneUnitEach {text : String} (plain : OneUnitEach text) :
    (units text.toList).length = text.toList.length := by
  have none : text.toList.countP isAstral = 0 :=
    List.countP_eq_zero.mpr fun c hc => by rw [(plain c hc).2]; decide
  rw [length_units, none, Nat.add_zero]

/-- A highlight that reads right needs a code unit for each character. -/
theorem oneUnitEach_of_highlighted {cues : List Cue} {document : String} {c : Candidate}
    (member : c ∈ chooseCandidates cues document)
    (right : highlighted document c = units c.text.toList) : OneUnitEach c.text := by
  obtain ⟨-, -, -, stop, -⟩ := candidate_splits member
  have length : (units c.text.toList).length ≤ c.text.toList.length := by
    rw [← right, highlighted, Browser.slice, List.length_take]
    omega
  rw [length_units] at length
  intro d hd
  constructor
  · rintro rfl
    have unit : '\r'.toNat ∈ highlighted document c := by
      rw [right]
      exact (mem_units (by decide)).mpr hd
    rw [highlighted, Browser.slice] at unit
    have shown : '\r'.toNat ∈ pageText document := List.mem_of_mem_drop (List.mem_of_mem_take unit)
    exact carriage_notMem_preContent document.toList ((mem_units (by decide)).mp shown)
  · have none : c.text.toList.countP isAstral = 0 := by omega
    simpa using List.countP_eq_zero.mp none d hd

/-- Given a code unit for each character, the highlight reads right if and only if the page
repeats itself there. -/
theorem highlighted_iff_repeats {cues : List Cue} {document : String} {c : Candidate}
    (member : c ∈ chooseCandidates cues document) (plain : OneUnitEach c.text) :
    highlighted document c = units c.text.toList ↔ Repeats document c := by
  obtain ⟨back, page⟩ := pageText_eq member
  obtain ⟨-, -, -, stop, -⟩ := candidate_splits member
  have clean : '\r' ∉ c.text.toList := fun carriage => (plain '\r' carriage).1 rfl
  have place : ((c.start : ℤ) + shift document c).toNat =
      (units (preContent (leading document c))).length := by
    rw [← place_eq member]
    exact Int.toNat_natCast _
  have length := length_units_of_oneUnitEach plain
  rw [normalizeNewlines_of_clean clean, units_append] at page
  rw [highlighted, Repeats, page, place, stop, ← String.length_toList, ← length]
  exact slice_eq_iff _ _ _ _

/-- When the highlight of a candidate is the candidate's own text: every character of it is one
code unit, and either its place in the page is its offset or the page happens to read the same
at both. It stands at its own place exactly in the first case. -/
theorem candidates_highlighted_iff {fieldCues : String → Option (List Cue)}
    {field document : String} {returned : List Candidate}
    (result : candidates fieldCues field document = some returned) {c : Candidate}
    (member : c ∈ returned) :
    (highlighted document c = units c.text.toList ↔
      OneUnitEach c.text ∧ (shift document c = 0 ∨ Repeats document c)) ∧
    ((highlighted document c = units c.text.toList ∧
        beforeHighlight document c = units (preContent (leading document c))) ↔
      OneUnitEach c.text ∧ shift document c = 0) := by
  obtain ⟨cues, -, rfl⟩ := Option.map_eq_some_iff.mp result
  have place := place_eq member
  have unshifted : shift document c = 0 → Repeats document c := by
    intro zero k _
    rw [zero, Int.add_zero, Int.toNat_natCast]
  refine ⟨⟨?_, ?_⟩, ?_, ?_⟩
  · intro right
    have plain := oneUnitEach_of_highlighted member right
    exact ⟨plain, Or.inr ((highlighted_iff_repeats member plain).mp right)⟩
  · rintro ⟨plain, either⟩
    exact (highlighted_iff_repeats member plain).mpr (either.elim unshifted id)
  · rintro ⟨right, before⟩
    refine ⟨oneUnitEach_of_highlighted member right, ?_⟩
    obtain ⟨back, page⟩ := pageText_eq member
    obtain ⟨-, -, -, stop, first, rest, starts, -⟩ := candidate_splits member
    have cut := congrArg List.length before
    have shown := congrArg List.length right
    have nonempty : 0 < (units c.text.toList).length := by
      rw [length_units, starts, List.length_cons]
      omega
    rw [beforeHighlight, Browser.slice, List.length_take, List.length_drop] at cut
    rw [highlighted, Browser.slice, List.length_take, List.length_drop] at shown
    omega
  · rintro ⟨plain, zero⟩
    refine ⟨(highlighted_iff_repeats member plain).mpr (unshifted zero), ?_⟩
    obtain ⟨back, page⟩ := pageText_eq member
    have start : c.start = (units (preContent (leading document c))).length := by omega
    rw [beforeHighlight, Browser.slice, page, start, List.drop_zero, Nat.sub_zero, List.take_left]

/-- One accented sentence, which no cue matches. -/
theorem candidates_highlighted_cafe :
    highlighted "Café down." ⟨0, 10, "Café down.", []⟩ = units "Café down.".toList := by
  have member : (⟨0, 10, "Café down.", []⟩ : Candidate) ∈
      chooseCandidates [percentCue] "Café down." :=
    @mem_chooseCandidates_of_few [percentCue] "Café down." ⟨0, 10, "Café down."⟩
      (by decide) (by decide)
  have plain : OneUnitEach "Café down." := by
    rw [OneUnitEach]
    simp [isAstral]
  exact (@candidates_highlighted_iff (fun _ => some [percentCue]) "blast_radius" "Café down." _ rfl
    _ member).1.mpr ⟨plain, Or.inl (by decide)⟩

/-- One emoji in front: the highlight starts one code unit early. -/
theorem highlight_shifted_by_emoji :
    ∃ returned, candidates (fun _ => some [percentCue]) "blast_radius" "😀.\n\nHi." = some returned ∧
      ∃ c ∈ returned, c.text = "Hi." ∧ highlighted "😀.\n\nHi." c = units "\nHi".toList ∧
        highlighted "😀.\n\nHi." c ≠ units c.text.toList := by
  refine ⟨_, rfl, ⟨4, 7, "Hi.", []⟩, ?_, rfl, by decide, by decide⟩
  exact @mem_chooseCandidates_of_few [percentCue] "😀.\n\nHi." ⟨4, 7, "Hi."⟩ (by decide) (by decide)

end IncidentPipeline
