import IncidentPipeline.Review.Passages

/-!
# Passages and blank lines

`passages` promises never to cross a blank line. Its test for one, `_PARAGRAPH_BREAK`,
wants two newlines with spaces and tabs alone between them, while the gap between two
sentences is white space of every kind. Where a gap holds two newlines and the test does
not see it, as with the line ends `\r\n`, a passage runs across.
-/

namespace IncidentPipeline

open Python Spans

/-- Two newlines with only blank characters between them. -/
def NewlinesWithin (blank : Char → Bool) (cs : List Char) : Prop :=
  ∃ front between back, cs = front ++ '\n' :: (between ++ '\n' :: back) ∧
    ∀ c ∈ between, blank c = true

/-- The same by positions in a text of which `s` is a part. -/
theorem newlinesWithin_slice {blank : Char → Bool} {s : Span} {cs : List Char} :
    NewlinesWithin blank (s.slice cs) ↔
      ∃ i j, i < j ∧ s.Contains i ∧ s.Contains j ∧ NewlineAt cs i ∧ NewlineAt cs j ∧
        ∀ k, i < k → k < j → ∃ c, cs[k]? = some c ∧ blank c = true := by
  constructor
  · rintro ⟨front, between, back, split, blanks⟩
    have first : (s.slice cs)[front.length]? = some '\n' := by
      rw [split]
      exact getElem?_behind front _ 0
    have behind : ∀ k, (s.slice cs)[front.length + 1 + k]? = (between ++ '\n' :: back)[k]? := by
      intro k
      rw [split, Nat.add_assoc, getElem?_behind, Nat.add_comm, List.getElem?_cons_succ]
    have second : (s.slice cs)[front.length + 1 + between.length]? = some '\n' := by
      rw [behind]
      exact getElem?_behind between _ 0
    obtain ⟨inFirst, readFirst⟩ := Span.getElem?_of_slice first
    obtain ⟨inSecond, readSecond⟩ := Span.getElem?_of_slice second
    refine ⟨_, _, by omega, inFirst, inSecond, readFirst, readSecond, ?_⟩
    intro k low high
    obtain ⟨d, rfl⟩ : ∃ d, k = s.start + (front.length + 1 + d) :=
      ⟨k - (s.start + (front.length + 1)), by omega⟩
    have short : d < between.length := by omega
    have read : (s.slice cs)[front.length + 1 + d]? = some between[d] := by
      rw [behind, List.getElem?_append_left short, List.getElem?_eq_getElem]
    exact ⟨between[d], (Span.getElem?_of_slice read).2, blanks _ (List.getElem_mem short)⟩
  · rintro ⟨i, j, order, inFirst, inSecond, first, second, blanks⟩
    have back : (Span.mk (i + 1) s.stop).Contains j := ⟨order, inSecond.2⟩
    refine ⟨_, _, _, by rw [Span.slice_split inFirst first, Span.slice_split back second], ?_⟩
    intro c hc
    obtain ⟨k, contains, read⟩ := Span.mem_slice.mp hc
    obtain ⟨d, again, blank⟩ := blanks k contains.1 contains.2
    rw [read] at again
    cases again
    exact blank

theorem paragraphBreak_iff {cs : List Char} :
    paragraphBreak cs = true ↔ NewlinesWithin isBlank cs := by
  induction cs with
  | nil =>
      refine ⟨by simp [paragraphBreak], ?_⟩
      rintro ⟨front, between, back, split, -⟩
      simp at split
  | cons c cs ih =>
      rw [paragraphBreak, Bool.or_eq_true, ih]
      constructor
      · rintro (here | ⟨front, between, back, split, blanks⟩)
        · simp only [Bool.and_eq_true, decide_eq_true_eq] at here
          obtain ⟨rfl, next⟩ := here
          obtain ⟨back, stops⟩ := List.head?_eq_some_iff.mp next
          refine ⟨[], cs.takeWhile isBlank, back, ?_, fun d hd => List.mem_takeWhile_imp hd⟩
          rw [List.nil_append, ← stops, List.takeWhile_append_dropWhile]
        · exact ⟨c :: front, between, back, by rw [split, List.cons_append], blanks⟩
      · rintro ⟨front, between, back, split, blanks⟩
        cases front with
        | nil =>
            obtain ⟨rfl, rest⟩ := List.cons.inj split
            refine Or.inl ?_
            have stops : cs.dropWhile isBlank = '\n' :: back := by
              rw [rest, List.dropWhile_append_of_pos blanks]
              rfl
            simp [stops]
        | cons d front =>
            exact Or.inr ⟨front, between, back, (List.cons.inj split).2, blanks⟩

/-- What `passages` is for: no passage holds two newlines with only white space between. -/
def KeepsBlankLines (document : String) (window : ℤ) : Prop :=
  ∀ p ∈ passages document window, ¬ NewlinesWithin isSpace p.text.toList

/-- The pairs of a current passage and a next sentence that the loop looks at. -/
def compared (document : String) (window : ℤ) : List (Span × Span) :=
  match sentences document with
  | [] => []
  | current :: rest => comparisons (joins document window) current rest

/-- Every white space between two solid characters that holds two newlines holds two with
only spaces and tabs between them. -/
def BlankLinesPlain (cs : List Char) : Prop :=
  ∀ front c run d back, cs = front ++ c :: (run ++ d :: back) → isSpace c = false →
    isSpace d = false → (∀ x ∈ run, isSpace x = true) →
      NewlinesWithin isSpace run → NewlinesWithin isBlank run

/-- One window: the passages keep blank lines if and only if the loop recognises each blank
line in front of a sentence for which it has room. -/
theorem keepsBlankLines_iff (document : String) (window : ℤ) :
    KeepsBlankLines document window ↔
      ∀ pair ∈ compared document window, (pair.2.stop : ℤ) - pair.1.start ≤ window →
        NewlinesWithin isSpace (gap document pair.1 pair.2) →
          NewlinesWithin isBlank (gap document pair.1 pair.2) := by
  have splits := splits_sentences document
  rw [KeepsBlankLines, compared]
  cases found : sentences document with
  | nil => simp [passages, passageSpans, found]
  | cons current rest =>
      rw [found] at splits
      have spans := passageSpans_eq window found
      constructor
      · intro keeps pair member fits hidden
        by_contra unseen
        have joined : joins document window pair.1 pair.2 = true := by
          rw [joins, Bool.and_eq_true, decide_eq_true_eq, Bool.not_eq_true', ← Bool.not_eq_true,
            paragraphBreak_iff]
          exact ⟨fits, unseen⟩
        obtain ⟨p, hp, starts, stops⟩ := joined_inside splits.ascending member joined
        have proper := fst_proper_of_mem_comparisons splits.ascending member
        have second := splits.ascending.nonempty pair.2
          (List.mem_cons_of_mem _ (snd_mem_of_mem_comparisons member))
        apply keeps (Passage.ofSpan document p)
        · rw [passages, spans]
          exact List.mem_map_of_mem hp
        · obtain ⟨i, j, order, ⟨low, _⟩, ⟨_, high⟩, newlines⟩ := newlinesWithin_slice.mp hidden
          simp only at low high
          rw [Passage.ofSpan, textAt, String.toList_ofList]
          exact newlinesWithin_slice.mpr
            ⟨i, j, order, ⟨by omega, by omega⟩, ⟨by omega, by omega⟩, newlines⟩
      · intro seen p hp crosses
        obtain ⟨s, hs, rfl⟩ := List.mem_map.mp hp
        rw [spans] at hs
        rw [Passage.ofSpan, textAt, String.toList_ofList] at crosses
        obtain ⟨i, j, order, inside, _, first, second, spaces⟩ := newlinesWithin_slice.mp crosses
        obtain ⟨t, ht, contains⟩ | ⟨pair, member, joined, low, high⟩ := gap_or_inside hs inside
        · exact splits.oneLine t ht i contains first
        · have solid := (splits.tight pair.2
            (List.mem_cons_of_mem _ (snd_mem_of_mem_comparisons member))).1
          have below : j < pair.2.start := by
            by_contra above
            obtain same | before := (not_lt.mp above).eq_or_lt
            · rw [same] at solid
              exact not_solid_of_spaceAt (spaceAt_of_newlineAt second) solid
            · exact not_solid_of_spaceAt (spaces pair.2.start high before) solid
          rw [joins, Bool.and_eq_true, decide_eq_true_eq, Bool.not_eq_true', ← Bool.not_eq_true,
            paragraphBreak_iff] at joined
          apply joined.2
          apply seen pair member joined.1
          exact newlinesWithin_slice.mpr ⟨i, j, order, ⟨low, high⟩,
            ⟨low.trans order.le, below⟩, first, second, spaces⟩

/-- All windows: a wide one compares every two neighbouring sentences. -/
theorem forall_keepsBlankLines_iff (document : String) :
    (∀ window, KeepsBlankLines document window) ↔
      (sentences document).IsChain fun a b =>
        NewlinesWithin isSpace (gap document a b) → NewlinesWithin isBlank (gap document a b) := by
  have splits := splits_sentences document
  simp only [keepsBlankLines_iff, compared]
  cases found : sentences document with
  | nil => simp
  | cons current rest =>
      rw [found] at splits
      have neighbours := fun window => @forall_comparisons_iff (joins document window)
        (fun stop b => NewlinesWithin isSpace ((Span.mk stop b.start).slice document.toList) →
          NewlinesWithin isBlank ((Span.mk stop b.start).slice document.toList)) current rest
      constructor
      · intro seen
        apply (neighbours document.toList.length).mp
        intro pair member
        have := (splits.bounds pair.2
          (List.mem_cons_of_mem _ (snd_mem_of_mem_comparisons member))).2
        exact seen _ pair member (by omega)
      · intro chain window pair member _
        exact (neighbours window).mpr chain pair member

/-- The gap between two neighbouring sentences is a run of white space between two solid
characters. -/
theorem gap_run {document : String} {front back : List Span} {a b : Span}
    (split : sentences document = front ++ a :: b :: back) :
    ∃ before c d after, document.toList = before ++ c :: (gap document a b ++ d :: after) ∧
      isSpace c = false ∧ isSpace d = false ∧ ∀ x ∈ gap document a b, isSpace x = true := by
  have splits := splits_sentences document
  have ha : a ∈ sentences document := by simp [split]
  have hb : b ∈ sentences document := by simp [split]
  have proper := splits.ascending.nonempty a ha
  have apart : a.stop ≤ b.start := by
    have tail := (List.pairwise_append.mp (split ▸ splits.ascending).apart).2.1
    exact (List.pairwise_cons.mp tail).1 b (by simp)
  have inside := (splits.tight b hb).1.lt
  obtain ⟨c, readFirst, solidFirst⟩ := (splits.tight a ha).2
  obtain ⟨d, readSecond, solidSecond⟩ := (splits.tight b hb).1
  have next : a.stop - 1 + 1 = a.stop := by omega
  have whole : document.toList = (Span.mk 0 (a.stop - 1)).slice document.toList ++
      c :: (gap document a b ++ d ::
        (Span.mk (b.start + 1) document.toList.length).slice document.toList) := by
    have first : (Span.mk 0 document.toList.length).Contains (a.stop - 1) :=
      ⟨Nat.zero_le _, by simp only; omega⟩
    have second : (Span.mk a.stop document.toList.length).Contains b.start := ⟨apart, inside⟩
    have cut := Span.slice_split first readFirst
    rw [next, Span.slice_split second readSecond, Span.slice_all] at cut
    exact cut
  refine ⟨_, c, d, _, whole, solidFirst, solidSecond, ?_⟩
  intro x hx
  obtain ⟨k, ⟨low, high⟩, read⟩ := Span.mem_slice.mp hx
  simp only at low high
  cases kind : isSpace x with
  | true => rfl
  | false =>
      obtain ⟨u, hu, contains⟩ := splits.covers k (Nat.zero_le k) ⟨x, read, kind⟩
      rw [split] at hu
      rw [Span.Contains] at contains
      obtain before | behind := (split ▸ splits.ascending).gap_empty hu
      · omega
      · omega

/-- A run of white space with a newline, between two solid characters, is such a gap. -/
theorem gap_of_run {document : String} {before run after : List Char} {c d : Char}
    (split : document.toList = before ++ c :: (run ++ d :: after))
    (solidFirst : isSpace c = false) (solidSecond : isSpace d = false)
    (spaces : ∀ x ∈ run, isSpace x = true) (newline : '\n' ∈ run) :
    ∃ front a b back, sentences document = front ++ a :: b :: back ∧ gap document a b = run := by
  have splits := splits_sentences document
  have first : Solid document.toList before.length := by
    refine ⟨c, ?_, solidFirst⟩
    rw [split]
    exact getElem?_behind before _ 0
  have asSlice : (Span.mk (before.length + 1) (before.length + 1 + run.length)).slice
      document.toList = run := by
    have := Span.slice_middle (before ++ [c]) run (d :: after)
    rwa [List.length_append, List.length_singleton, List.append_assoc, List.singleton_append,
      ← split] at this
  have second : Solid document.toList (before.length + 1 + run.length) := by
    refine ⟨d, ?_, solidSecond⟩
    rw [split, Nat.add_assoc, getElem?_behind, Nat.add_comm, List.getElem?_cons_succ]
    exact getElem?_behind run _ 0
  have between : ∀ k, before.length < k → k < before.length + 1 + run.length →
      ¬ Solid document.toList k := by
    rintro k low high ⟨x, read, solid⟩
    have white := spaces x (asSlice ▸ Span.mem_slice.mpr ⟨k, ⟨low, high⟩, read⟩)
    rw [solid] at white
    cases white
  obtain ⟨i, ⟨low, high⟩, read⟩ := Span.mem_slice.mp (asSlice.symm ▸ newline)
  simp only at low high
  have outside : ∀ s ∈ sentences document, ¬ s.Contains i := by
    intro s hs contains
    exact splits.oneLine s hs i contains read
  obtain ⟨a, ha, containsFirst⟩ := splits.covers _ (Nat.zero_le _) first
  obtain ⟨b, hb, containsSecond⟩ := splits.covers _ (Nat.zero_le _) second
  rw [Span.Contains] at containsFirst containsSecond
  have stops : a.stop ≤ i := by
    by_contra past
    exact outside a ha ⟨by omega, by omega⟩
  have starts : i < b.start := by
    by_contra early
    exact outside b hb ⟨by omega, by omega⟩
  obtain ⟨front, s, t, back, neighbours, below, above⟩ :=
    splits.ascending.neighbours outside ha hb stops starts
  have hs : s ∈ sentences document := by simp [neighbours]
  have ht : t ∈ sentences document := by simp [neighbours]
  have properS := splits.ascending.nonempty s hs
  have properT := splits.ascending.nonempty t ht
  have left : s.stop = before.length + 1 := by
    have reach := (neighbours ▸ splits.ascending).gap_empty (neighbours ▸ ha)
    by_contra differ
    exact between (s.stop - 1) (by omega) (by omega) (splits.tight s hs).2
  have right : t.start = before.length + 1 + run.length := by
    have reach := (neighbours ▸ splits.ascending).gap_empty (neighbours ▸ hb)
    by_contra differ
    exact between t.start (by omega) (by omega) (splits.tight t ht).1
  refine ⟨front, s, t, back, neighbours, ?_⟩
  rw [gap, left, right]
  exact asSlice

/-- When passages keep blank lines: for one window, where the loop recognises each blank line
for whose sentence it has room; for all windows, where every blank line of the text shows two
newlines with only spaces and tabs between them. -/
theorem passages_keep_blank_lines_iff (document : String) :
    (∀ window, KeepsBlankLines document window ↔
      ∀ pair ∈ compared document window, (pair.2.stop : ℤ) - pair.1.start ≤ window →
        NewlinesWithin isSpace (gap document pair.1 pair.2) →
          NewlinesWithin isBlank (gap document pair.1 pair.2)) ∧
    ((∀ window, KeepsBlankLines document window) ↔ BlankLinesPlain document.toList) := by
  refine ⟨keepsBlankLines_iff document, ?_⟩
  rw [forall_keepsBlankLines_iff, List.isChain_iff_forall_rel_of_append_cons_cons]
  constructor
  · intro chain before c run d after split solidFirst solidSecond spaces hidden
    have newline : '\n' ∈ run := by
      obtain ⟨front, between, back, whole, -⟩ := hidden
      simp [whole]
    obtain ⟨front, a, b, back, neighbours, rfl⟩ :=
      gap_of_run split solidFirst solidSecond spaces newline
    exact chain neighbours hidden
  · intro plain a b front back neighbours hidden
    obtain ⟨before, c, d, after, split, solidFirst, solidSecond, spaces⟩ := gap_run neighbours
    exact plain before c _ d after split solidFirst solidSecond spaces hidden

/-- Windows line ends: one passage across the blank line between two paragraphs. -/
theorem passage_crosses_blank_line : ¬ KeepsBlankLines "a\r\n\r\nb" windowChars := by
  intro keeps
  apply keeps ⟨0, 6, "a\r\n\r\nb"⟩
  · decide
  · exact ⟨['a', '\r'], ['\r'], ['b'], rfl, List.forall_mem_singleton.mpr rfl⟩

end IncidentPipeline
