import IncidentPipeline.Review.Candidates

/-!
# Passages of a document

The boundaries cut a document into pieces, with nothing but white space between them
and no newline inside one. Trimmed, the pieces that are not empty are the sentences, and
the packing pass turns them into passages. What is said of the sentences here holds of
every text; the packing is the one of the span library.
-/

namespace IncidentPipeline

open Python Spans

/-- Position `i` holds a character other than white space. -/
def Solid (document : List Char) (i : ℕ) : Prop :=
  ∃ c, document[i]? = some c ∧ isSpace c = false

def SpaceAt (document : List Char) (i : ℕ) : Prop :=
  ∃ c, document[i]? = some c ∧ isSpace c = true

def NewlineAt (document : List Char) (i : ℕ) : Prop := document[i]? = some '\n'

theorem not_solid_of_spaceAt {document : List Char} {i : ℕ} (space : SpaceAt document i) :
    ¬ Solid document i := by
  obtain ⟨c, read, isSpace⟩ := space
  rintro ⟨d, again, notSpace⟩
  rw [read] at again
  cases again
  rw [isSpace] at notSpace
  cases notSpace

theorem spaceAt_of_newlineAt {document : List Char} {i : ℕ} (newline : NewlineAt document i) :
    SpaceAt document i := ⟨'\n', newline, by decide⟩

theorem Solid.lt {document : List Char} {i : ℕ} (solid : Solid document i) :
    i < document.length := by
  obtain ⟨c, read, -⟩ := solid
  exact (List.getElem?_eq_some_iff.mp read).1

/-! ### Boundaries -/

/-- A match ends behind its `punct`, which holds no newline, and what follows up to the
end of the match is white space. -/
theorem matchBoundary_some {cs : List Char} {punct length : ℕ}
    (found : matchBoundary cs = some (punct, length)) :
    punct < length ∧ length ≤ cs.length ∧ (∀ i < punct, ¬ NewlineAt cs i) ∧
      ∀ i, punct ≤ i → i < length → SpaceAt cs i := by
  rw [matchBoundary] at found
  split at found
  · next both =>
      set run := cs.takeWhile isStop with hrun
      set closers := (cs.drop run.length).takeWhile isCloser with hclosers
      set space := (cs.drop (run.length + closers.length)).takeWhile isSpace with hspace
      cases found
      have blank : 0 < space.length := List.length_pos_iff.mpr both.2
      have spaces : ∀ j < space.length, SpaceAt cs (run.length + closers.length + j) := by
        intro j short
        rw [hspace] at short
        obtain ⟨c, read, kind⟩ := read_takeWhile short
        rw [List.getElem?_drop] at read
        exact ⟨c, read, kind⟩
      refine ⟨by omega, ?_, ?_, ?_⟩
      · obtain ⟨c, read, -⟩ := spaces (space.length - 1) (by omega)
        have := (List.getElem?_eq_some_iff.mp read).1
        omega
      · intro i short newline
        by_cases front : i < run.length
        · obtain ⟨c, read, kind⟩ := read_takeWhile front
          rw [newline] at read
          cases read
          exact absurd kind (by decide)
        · have back : i - run.length < closers.length := by omega
          obtain ⟨c, read, kind⟩ := read_takeWhile back
          rw [List.getElem?_drop, Nat.add_sub_cancel' (not_lt.mp front), newline] at read
          cases read
          exact absurd kind (by decide)
      · intro i low high
        have := spaces (i - (run.length + closers.length)) (by omega)
        rwa [Nat.add_sub_cancel' low] at this
  · split at found
    · next newline =>
        cases found
        rw [List.head?_eq_getElem?] at newline
        refine ⟨by omega, (List.getElem?_eq_some_iff.mp newline).1, by omega, ?_⟩
        intro i _ short
        obtain rfl : i = 0 := by omega
        exact spaceAt_of_newlineAt newline
    · cases found

theorem matchBoundary_none {cs : List Char} (missing : matchBoundary cs = none) :
    ¬ NewlineAt cs 0 := by
  intro newline
  rw [NewlineAt, ← List.head?_eq_getElem?] at newline
  rw [matchBoundary] at missing
  split at missing
  · cases missing
  · cases missing

/-- The boundaries cut the text behind `start` into pieces: the space between two pieces
is white, and no piece holds a newline. -/
inductive Cuts (document : List Char) : ℕ → List Boundary → Prop
  | last {start : ℕ} : start ≤ document.length → (∀ i, start ≤ i → ¬ NewlineAt document i) →
      Cuts document start []
  | cut {start : ℕ} {m : Boundary} {ms : List Boundary} : start ≤ m.stop → m.stop < m.finish →
      m.finish ≤ document.length →
      (∀ i, start ≤ i → i < m.stop → ¬ NewlineAt document i) →
      (∀ i, m.stop ≤ i → i < m.finish → SpaceAt document i) →
      Cuts document m.finish ms → Cuts document start (m :: ms)

/-- The scan cuts the document, whatever part of the last match is still to be skipped. -/
theorem cuts_boundariesFrom {document cs : List Char} {pos skip start : ℕ}
    (rest : document.drop pos = cs) (within : pos + skip ≤ document.length)
    (behind : start ≤ pos + skip)
    (clean : ∀ i, start ≤ i → i < pos + skip → ¬ NewlineAt document i) :
    Cuts document start (boundariesFrom pos skip cs) := by
  induction cs generalizing pos skip start with
  | nil =>
      have short : document.length ≤ pos := List.drop_eq_nil_iff.mp rest
      refine .last (by omega) ?_
      intro i low newline
      have := (List.getElem?_eq_some_iff.mp newline).1
      exact clean i low (by omega) newline
  | cons c cs ih =>
      have next : document.drop (pos + 1) = cs := by
        rw [← List.drop_drop, rest, List.drop_one, List.tail_cons]
      have read : ∀ i, (c :: cs)[i]? = document[pos + i]? := by
        intro i
        rw [← rest, List.getElem?_drop]
      cases skip with
      | succ skip =>
          have same : pos + (skip + 1) = pos + 1 + skip := by omega
          rw [same] at within behind clean
          exact ih next within behind clean
      | zero =>
          rw [boundariesFrom]
          cases found : matchBoundary (c :: cs) with
          | none =>
              have here := matchBoundary_none found
              rw [NewlineAt, read] at here
              have inside : pos < document.length := by
                have := congrArg List.length rest
                rw [List.length_drop, List.length_cons] at this
                omega
              apply ih next (by omega) (by omega)
              intro i low high
              by_cases at_pos : i = pos
              · rw [at_pos]
                exact here
              · exact clean i low (by omega)
          | some lengths =>
              obtain ⟨punct, length⟩ := lengths
              obtain ⟨proper, fits, noNewline, spaces⟩ := matchBoundary_some found
              have inside : pos + length ≤ document.length := by
                have := congrArg List.length rest
                rw [List.length_drop] at this
                omega
              refine .cut (by simp only; omega) (by simp only; omega) inside ?_ ?_ ?_
              · intro i low high newline
                by_cases before : i < pos
                · exact clean i low (by omega) newline
                · apply noNewline (i - pos) (by simp only at high; omega)
                  rw [NewlineAt, read, Nat.add_sub_cancel' (not_lt.mp before)]
                  exact newline
              · intro i low high
                simp only at low high
                obtain ⟨d, readSpace, kind⟩ := spaces (i - pos) (by omega) (by omega)
                rw [read, Nat.add_sub_cancel' (by omega)] at readSpace
                exact ⟨d, readSpace, kind⟩
              · have finish : pos + 1 + (length - 1) = pos + length := by omega
                apply ih next
                · rw [finish]
                  exact inside
                · simp only
                  omega
                · intro i low high
                  simp only at low
                  omega

theorem cuts_boundaries (document : List Char) :
    Cuts document 0 (boundariesFrom 0 0 document) :=
  cuts_boundariesFrom List.drop_zero (Nat.zero_le _) (Nat.zero_le _) (by omega)

/-! ### Sentences -/

theorem addSentence_eq (document : List Char) (start stop : ℕ) :
    addSentence document start stop =
      let text := (Span.mk start stop).slice document
      let lead := (text.takeWhile isSpace).length
      let trail := (text.reverse.takeWhile isSpace).length
      if start + lead < stop - trail then [⟨start + lead, stop - trail⟩] else [] := by
  have trail := length_sub_dropWhile isSpace ((Span.mk start stop).slice document).reverse
  rw [List.length_reverse] at trail
  simp only [addSentence, length_sub_dropWhile, trail]

/-- What one piece contributes starts and stops at a character that is not white space. -/
theorem mem_addSentence {document : List Char} {start stop : ℕ} (inside : stop ≤ document.length)
    {s : Span} (member : s ∈ addSentence document start stop) :
    start ≤ s.start ∧ s.start < s.stop ∧ s.stop ≤ stop ∧ Solid document s.start ∧
      Solid document (s.stop - 1) := by
  rw [addSentence_eq] at member
  dsimp only at member
  set text := (Span.mk start stop).slice document with htext
  split at member
  · next proper =>
      obtain rfl := List.mem_singleton.mp member
      have length : text.length = stop - start := Span.length_slice inside
      set lead := (text.takeWhile isSpace).length with hlead
      set trail := (text.reverse.takeWhile isSpace).length with htrail
      have first : lead < text.length := by omega
      have last : trail < text.reverse.length := by
        rw [List.length_reverse]
        omega
      refine ⟨by simp only; omega, proper, by simp only; omega, ?_, ?_⟩
      · refine ⟨text[lead], ?_, read_behind_takeWhile (List.getElem?_eq_getElem first)⟩
        exact (Span.getElem?_of_slice (List.getElem?_eq_getElem first)).2
      · refine ⟨text.reverse[trail], ?_, read_behind_takeWhile (List.getElem?_eq_getElem last)⟩
        rw [List.length_reverse] at last
        have read : text[text.length - 1 - trail]? = some text.reverse[trail] := by
          rw [← List.getElem?_reverse last, List.getElem?_eq_getElem]
        have position : start + (text.length - 1 - trail) = stop - trail - 1 := by omega
        have back := (Span.getElem?_of_slice read).2
        simp only at back ⊢
        rw [position] at back
        exact back
  · cases member

/-- A piece loses white space only. -/
theorem addSentence_covers {document : List Char} {start stop i : ℕ}
    (inside : stop ≤ document.length) (low : start ≤ i) (high : i < stop)
    (solid : Solid document i) : ∃ s ∈ addSentence document start stop, s.Contains i := by
  obtain ⟨c, read, kind⟩ := solid
  rw [addSentence_eq]
  dsimp only
  set text := (Span.mk start stop).slice document with htext
  have length : text.length = stop - start := Span.length_slice inside
  have here : text[i - start]? = some c := by
    rw [htext, Span.slice_getElem? _ _ (by simp only; omega)]
    simp only
    rw [Nat.add_sub_cancel' low]
    exact read
  have lead : (text.takeWhile isSpace).length ≤ i - start := by
    by_contra short
    obtain ⟨d, again, white⟩ := read_takeWhile (not_le.mp short)
    rw [here] at again
    cases again
    rw [kind] at white
    cases white
  have trail : (text.reverse.takeWhile isSpace).length ≤ stop - 1 - i := by
    by_contra short
    obtain ⟨d, again, white⟩ := read_takeWhile (not_le.mp short)
    have mirror : text.length - 1 - (stop - 1 - i) = i - start := by omega
    rw [List.getElem?_reverse (by omega), mirror, here] at again
    cases again
    rw [kind] at white
    cases white
  rw [if_pos (by omega)]
  refine ⟨_, List.mem_singleton.mpr rfl, ?_⟩
  rw [Span.Contains]
  simp only
  omega

/-- Spans behind `start` that hold every solid character there, with solid ends and no
newline inside. -/
structure Splits (document : List Char) (start : ℕ) (ss : List Span) : Prop where
  ascending : Ascending ss
  bounds : ∀ s ∈ ss, start ≤ s.start ∧ s.stop ≤ document.length
  tight : ∀ s ∈ ss, Solid document s.start ∧ Solid document (s.stop - 1)
  oneLine : ∀ s ∈ ss, ∀ i, s.Contains i → ¬ NewlineAt document i
  covers : ∀ i, start ≤ i → Solid document i → ∃ s ∈ ss, s.Contains i

theorem splits_addSentence {document : List Char} {start : ℕ}
    (clean : ∀ i, start ≤ i → ¬ NewlineAt document i) :
    Splits document start (addSentence document start document.length) where
  ascending := by
    rw [addSentence]
    split
    · next proper => exact ⟨by simpa using proper, List.pairwise_singleton _ _⟩
    · exact ascending_nil
  bounds := by
    intro s hs
    obtain ⟨low, -, high, -⟩ := mem_addSentence le_rfl hs
    exact ⟨low, high⟩
  tight := by
    intro s hs
    exact (mem_addSentence le_rfl hs).2.2.2
  oneLine := by
    intro s hs i inside
    have := (mem_addSentence le_rfl hs).1
    exact clean i (this.trans inside.1)
  covers := by
    intro i low solid
    exact addSentence_covers le_rfl low solid.lt solid

/-- One more piece in front, and white space between it and the rest. -/
theorem Splits.append {document : List Char} {start stop finish : ℕ} {ss : List Span}
    (splits : Splits document finish ss) (forward : start ≤ finish) (order : stop ≤ finish)
    (inside : finish ≤ document.length)
    (clean : ∀ i, start ≤ i → i < stop → ¬ NewlineAt document i)
    (spaces : ∀ i, stop ≤ i → i < finish → SpaceAt document i) :
    Splits document start (addSentence document start stop ++ ss) := by
  have piece : ∀ s ∈ addSentence document start stop, _ := fun s hs =>
    mem_addSentence (order.trans inside) hs
  refine ⟨⟨?_, ?_⟩, ?_, ?_, ?_, ?_⟩
  · intro s hs
    obtain hs | hs := List.mem_append.mp hs
    · exact (piece s hs).2.1
    · exact splits.ascending.nonempty s hs
  · refine List.pairwise_append.mpr ⟨?_, splits.ascending.apart, ?_⟩
    · rw [addSentence]
      split
      · exact List.pairwise_singleton _ _
      · exact List.Pairwise.nil
    · intro s hs t ht
      have := (piece s hs).2.2.1
      have := (splits.bounds t ht).1
      omega
  · intro s hs
    obtain hs | hs := List.mem_append.mp hs
    · obtain ⟨low, -, high, -⟩ := piece s hs
      exact ⟨low, by omega⟩
    · obtain ⟨low, high⟩ := splits.bounds s hs
      exact ⟨by omega, high⟩
  · intro s hs
    obtain hs | hs := List.mem_append.mp hs
    · exact (piece s hs).2.2.2
    · exact splits.tight s hs
  · intro s hs i contains
    obtain hs | hs := List.mem_append.mp hs
    · obtain ⟨low, -, high, -⟩ := piece s hs
      exact clean i (low.trans contains.1) (by have := contains.2; omega)
    · exact splits.oneLine s hs i contains
  · intro i low solid
    by_cases front : i < stop
    · obtain ⟨s, hs, contains⟩ := addSentence_covers (order.trans inside) low front solid
      exact ⟨s, List.mem_append_left _ hs, contains⟩
    · by_cases back : finish ≤ i
      · obtain ⟨s, hs, contains⟩ := splits.covers i back solid
        exact ⟨s, List.mem_append_right _ hs, contains⟩
      · exact absurd solid (not_solid_of_spaceAt (spaces i (by omega) (by omega)))

theorem splits_sentencesFrom {document : List Char} {start : ℕ} {ms : List Boundary}
    (cuts : Cuts document start ms) : Splits document start (sentencesFrom document start ms) := by
  induction cuts with
  | last _ clean => exact splits_addSentence clean
  | cut order proper inside clean spaces _ ih =>
      exact ih.append (by omega) (by omega) inside clean spaces

theorem splits_sentences (document : String) :
    Splits document.toList 0 (sentences document) :=
  splits_sentencesFrom (cuts_boundaries document.toList)

/-! ### Passages -/

theorem passageSpans_eq {document : String} {current : Span} {rest : List Span} (window : ℤ)
    (found : sentences document = current :: rest) :
    passageSpans document window = pack (joins document window) current rest := by
  rw [passageSpans, found]

theorem passageSpans_ascending (document : String) (window : ℤ) :
    Ascending (passageSpans document window) := by
  have ascending := (splits_sentences document).ascending
  rw [passageSpans]
  split
  · exact ascending_nil
  · next current rest found =>
      rw [found] at ascending
      exact ascending_pack ascending

/-- A passage starts where a sentence does and stops where one does. -/
theorem ends_of_mem_passageSpans {document : String} {window : ℤ} {p : Span}
    (member : p ∈ passageSpans document window) :
    (∃ a ∈ sentences document, p.start = a.start) ∧
      ∃ b ∈ sentences document, p.stop = b.stop := by
  rw [passageSpans] at member
  split at member
  · cases member
  · next current rest found =>
      rw [found]
      exact ends_of_mem_pack member

theorem tight_of_mem_passageSpans {document : String} {window : ℤ} {p : Span}
    (member : p ∈ passageSpans document window) :
    Solid document.toList p.start ∧ Solid document.toList (p.stop - 1) ∧
      p.stop ≤ document.toList.length := by
  have splits := splits_sentences document
  obtain ⟨⟨a, ha, starts⟩, b, hb, stops⟩ := ends_of_mem_passageSpans member
  rw [starts, stops]
  exact ⟨(splits.tight a ha).1, (splits.tight b hb).2, (splits.bounds b hb).2⟩

/-- The packing loses no sentence. -/
theorem passageSpans_covers {document : String} {window : ℤ} {s : Span}
    (member : s ∈ sentences document) :
    ∃ p ∈ passageSpans document window, p.start ≤ s.start ∧ s.stop ≤ p.stop := by
  have ascending := (splits_sentences document).ascending
  cases found : sentences document with
  | nil =>
      rw [found] at member
      cases member
  | cons current rest =>
      rw [found] at member ascending
      rw [passageSpans_eq window found]
      exact pack_covers ascending s member

theorem exists_passageSpan {document : String} (window : ℤ) {i : ℕ}
    (solid : Solid document.toList i) : ∃ p ∈ passageSpans document window, p.Contains i := by
  obtain ⟨s, hs, low, high⟩ := (splits_sentences document).covers i (Nat.zero_le i) solid
  obtain ⟨p, hp, starts, stops⟩ := @passageSpans_covers _ window _ hs
  exact ⟨p, hp, starts.trans low, high.trans_le stops⟩

/-- A passage of several sentences fits the window, because its last join did. -/
theorem passageSpans_fit {document : String} {window : ℤ} {p : Span}
    (member : p ∈ passageSpans document window) :
    p ∈ sentences document ∨ (p.stop : ℤ) - p.start ≤ window := by
  rw [passageSpans] at member
  split at member
  · cases member
  · next current rest found =>
      rw [found]
      obtain alone | ⟨pair, -, joined, rfl⟩ := mem_pack_cases member
      · exact Or.inl alone
      · rw [joins, Bool.and_eq_true, decide_eq_true_eq] at joined
        exact Or.inr joined.1

theorem passageSpans_greedy (document : String) (window : ℤ) :
    (passageSpans document window).IsChain fun p q =>
      ∃ s ∈ sentences document, s.start = q.start ∧ s.stop ≤ q.stop ∧
        (window < (s.stop : ℤ) - p.start ∨ paragraphBreak (gap document p s) = true) := by
  have ascending := (splits_sentences document).ascending
  rw [passageSpans]
  split
  · exact List.isChain_nil
  · next current rest found =>
      rw [found] at ascending ⊢
      refine (pack_greedy ascending).imp ?_
      rintro p q ⟨s, hs, starts, stops, refused⟩
      refine ⟨s, by simp [hs], starts, stops, ?_⟩
      rw [joins, Bool.and_eq_false_iff] at refused
      obtain long | broken := refused
      · exact Or.inl (not_le.mp (of_decide_eq_false long))
      · exact Or.inr (by simpa using broken)

/-- A text that starts and ends with a solid character has nothing to strip. -/
theorem trimmed_textAt {document : String} {s : Span} (proper : s.start < s.stop)
    (inside : s.stop ≤ document.toList.length) (first : Solid document.toList s.start)
    (last : Solid document.toList (s.stop - 1)) : Trimmed (textAt document s).toList := by
  rw [textAt, String.toList_ofList]
  constructor
  · intro c hc
    obtain ⟨d, read, solid⟩ := first
    rw [List.head?_eq_getElem?, Span.slice_getElem? _ _ (by omega), Nat.add_zero, read] at hc
    cases hc
    exact solid
  · intro c hc
    obtain ⟨d, read, solid⟩ := last
    have position : s.start + (s.stop - s.start - 1) = s.stop - 1 := by omega
    rw [List.getLast?_eq_getElem?, Span.length_slice inside, Span.slice_getElem? _ _ (by omega),
      position, read] at hc
    cases hc
    exact solid

theorem length_textAt {document : String} {s : Span} (inside : s.stop ≤ document.toList.length) :
    (textAt document s).length = s.stop - s.start := by
  rw [textAt, String.length_ofList, Span.length_slice inside]

/-- The passages partition what is not white space in the document, each a trimmed text of
its own; the window binds all but single sentences, and two neighbours stay apart only
where the first sentence of the second exceeds the window or follows a paragraph break. -/
theorem passages_pack_sentences (document : String) (window : ℤ) :
    (∀ p ∈ passages document window,
      p.start < p.end ∧ p.end ≤ document.length ∧
        p.text = textAt document ⟨p.start, p.end⟩ ∧ p.text ≠ "" ∧ Trimmed p.text.toList) ∧
    (passages document window).Pairwise (fun p q => p.end ≤ q.start) ∧
    (∀ i c, document.toList[i]? = some c → isSpace c = false →
      ∃! p, p ∈ passages document window ∧ p.start ≤ i ∧ i < p.end) ∧
    (∀ p ∈ passages document window,
      (p.text.length : ℤ) ≤ window ∨ ⟨p.start, p.end⟩ ∈ sentences document) ∧
    (passages document window).IsChain (fun p q =>
      ∃ s ∈ sentences document, s.start = q.start ∧ s.stop ≤ q.end ∧
        (window < (s.stop : ℤ) - p.start ∨
          paragraphBreak ((⟨p.end, s.start⟩ : Span).slice document.toList) = true)) := by
  have ascending := passageSpans_ascending document window
  have length : document.toList.length = document.length := String.length_toList
  refine ⟨?_, ?_, ?_, ?_, ?_⟩
  · intro p hp
    obtain ⟨s, hs, rfl⟩ := List.mem_map.mp hp
    have proper : s.start < s.stop := ascending.nonempty s hs
    obtain ⟨first, last, inside⟩ := tight_of_mem_passageSpans hs
    refine ⟨proper, length ▸ inside, rfl, ?_, trimmed_textAt proper inside first last⟩
    intro empty
    have short : (textAt document s).length = 0 := by
      rw [show textAt document s = "" from empty]
      rfl
    rw [length_textAt inside] at short
    omega
  · exact List.pairwise_map.mpr ascending.apart
  · intro i c read kind
    obtain ⟨s, hs, contains⟩ := exists_passageSpan window ⟨c, read, kind⟩
    refine ⟨Passage.ofSpan document s, ⟨List.mem_map_of_mem hs, contains⟩, ?_⟩
    rintro q ⟨hq, inside⟩
    obtain ⟨t, ht, rfl⟩ := List.mem_map.mp hq
    rw [ascending.unique ht hs inside contains]
  · intro p hp
    obtain ⟨s, hs, rfl⟩ := List.mem_map.mp hp
    have proper : s.start < s.stop := ascending.nonempty s hs
    have inside := (tight_of_mem_passageSpans hs).2.2
    obtain alone | fits := passageSpans_fit hs
    · exact Or.inr alone
    · refine Or.inl ?_
      change ((textAt document s).length : ℤ) ≤ window
      rw [length_textAt inside]
      omega
  · exact (List.isChain_map _).mpr (passageSpans_greedy document window)

end IncidentPipeline
