import IncidentPipeline.Review.Passages

/-!
# The choice of candidates

Which passages `candidates` returns, for any cues: the best five if at least three match,
and otherwise all that match, filled up with the earliest of the others.
-/

namespace IncidentPipeline

open Python Spans

/-- Some cue of the field matches the text. -/
def anyCue (cues : List Cue) (text : String) : Bool := cues.any fun cue => cue.search text

/-- The cues that match the text, by name. -/
def matchingCues (cues : List Cue) (text : String) : List String :=
  (cues.filter fun cue => cue.search text).map Cue.name

/-- `p` precedes `q` in the ranking: more distinct cues, then more matches, then earlier. -/
def Beats (cues : List Cue) (p q : Passage) : Prop :=
  distinct cues q.text < distinct cues p.text ∨
    (distinct cues q.text = distinct cues p.text ∧
      ((matched cues q.text).sum < (matched cues p.text).sum ∨
        ((matched cues q.text).sum = (matched cues p.text).sum ∧ p.start < q.start)))

def Candidate.passage (c : Candidate) : Passage := ⟨c.start, c.end, c.text⟩

theorem distinct_ne_zero_iff (cues : List Cue) (text : String) :
    distinct cues text ≠ 0 ↔ anyCue cues text = true := by
  rw [distinct, matched, List.countP_map, ← Nat.pos_iff_ne_zero, List.countP_pos_iff, anyCue,
    List.any_eq_true]
  constructor
  · rintro ⟨cue, member, hit⟩
    exact ⟨cue, member, (cue.search_iff text).mpr (by simpa using hit)⟩
  · rintro ⟨cue, member, found⟩
    exact ⟨cue, member, by simpa using (cue.search_iff text).mp found⟩

theorem matchingCues_eq_nil_iff (cues : List Cue) (text : String) :
    matchingCues cues text = [] ↔ anyCue cues text = false := by
  rw [matchingCues, List.map_eq_nil_iff, List.filter_eq_nil_iff, anyCue, List.any_eq_false]

/-! ### The ranking -/

section

variable (cues : List Cue) (ps : List Passage)

/-- The passages that match, by index. -/
def matching : List (Fin ps.length) :=
  (List.finRange ps.length).filter fun index => anyCue cues (ps.get index).text

/-- The indices taken from the ranking. -/
def picked : List (Fin ps.length) := ((scored cues ps).take maxCandidates).map Score.index

@[simp] theorem score_index (index : Fin ps.length) : (score cues ps index).index = index := rfl

theorem scored_eq :
    scored cues ps = ((matching cues ps).map (score cues ps)).mergeSort fun a b => b ≤ a := by
  rw [scored, matching]
  congr 3
  funext index
  rw [← Bool.coe_iff_coe, decide_eq_true_eq]
  exact distinct_ne_zero_iff cues (ps.get index).text

theorem scored_index_perm : ((scored cues ps).map Score.index).Perm (matching cues ps) := by
  rw [scored_eq]
  have sorted := (List.mergeSort_perm ((matching cues ps).map (score cues ps))
    fun a b => b ≤ a).map Score.index
  rwa [List.map_map, show Score.index ∘ score cues ps = id from rfl, List.map_id] at sorted

theorem matching_nodup : (matching cues ps).Nodup := (List.nodup_finRange _).filter _

theorem mem_matching {index : Fin ps.length} :
    index ∈ matching cues ps ↔ anyCue cues (ps.get index).text = true := by
  rw [matching, List.mem_filter]
  simp

theorem length_scored : (scored cues ps).length = (matching cues ps).length := by
  have := (scored_index_perm cues ps).length_eq
  rwa [List.length_map] at this

theorem picked_nodup : (picked cues ps).Nodup := by
  rw [picked, List.map_take]
  exact ((scored_index_perm cues ps).nodup_iff.mpr (matching_nodup cues ps)).take

theorem length_picked : (picked cues ps).length = min (matching cues ps).length maxCandidates := by
  rw [picked, List.length_map, List.length_take, length_scored, min_comm]

theorem picked_subset {index : Fin ps.length} (member : index ∈ picked cues ps) :
    index ∈ matching cues ps := by
  rw [picked, List.map_take] at member
  exact (scored_index_perm cues ps).subset (List.mem_of_mem_take member)

/-- With room for all, all that match are picked. -/
theorem picked_of_few (few : (matching cues ps).length ≤ maxCandidates) {index : Fin ps.length}
    (member : index ∈ matching cues ps) : index ∈ picked cues ps := by
  rw [picked, List.take_of_length_le (by rw [length_scored]; exact few)]
  exact (scored_index_perm cues ps).symm.subset member

/-- Whoever is picked has the greater score. -/
theorem score_lt_of_left_out {index other : Fin ps.length} (member : index ∈ matching cues ps)
    (out : index ∉ picked cues ps) (hother : other ∈ picked cues ps) :
    score cues ps index < score cues ps other := by
  have isScore : ∀ s ∈ scored cues ps, s = score cues ps s.index := by
    intro s hs
    rw [scored_eq, List.mem_mergeSort] at hs
    obtain ⟨i, -, rfl⟩ := List.mem_map.mp hs
    rfl
  obtain ⟨s, hs, same⟩ := List.mem_map.mp ((scored_index_perm cues ps).symm.subset member)
  obtain ⟨t, ht, rfl⟩ := List.mem_map.mp hother
  have behind : s ∈ (scored cues ps).drop maxCandidates := by
    rw [← List.take_append_drop maxCandidates (scored cues ps)] at hs
    obtain early | late := List.mem_append.mp hs
    · exact absurd (List.mem_map.mpr ⟨s, early, same⟩) out
    · exact late
  have order : (scored cues ps).Pairwise fun a b => b ≤ a := by
    rw [scored_eq]
    refine (List.pairwise_mergeSort ?_ ?_ _).imp of_decide_eq_true
    · intro a b c first second
      rw [decide_eq_true_eq] at first second ⊢
      exact second.trans first
    · intro a b
      rw [Bool.or_eq_true, decide_eq_true_eq, decide_eq_true_eq]
      exact le_total b a
  rw [← List.take_append_drop maxCandidates (scored cues ps), List.pairwise_append] at order
  have le := order.2.2 t ht s behind
  rw [isScore s hs, same, isScore t (List.mem_of_mem_take ht)] at le
  refine lt_of_le_of_ne le ?_
  intro tie
  have sameIndex : index = t.index := congrArg Score.index tie
  exact out (sameIndex ▸ hother)

end

/-! ### The filling -/

theorem fill_of_enough {n : ℕ} {chosen : Finset (Fin n)} (enough : minCandidates ≤ chosen.card)
    (l : List (Fin n)) : fill chosen l = chosen := by
  cases l with
  | nil => rfl
  | cons index rest => rw [fill, if_pos enough]

/-- The loop adds some first indices, and stops as soon as there are enough. -/
theorem fill_spec {n : ℕ} (chosen : Finset (Fin n)) (l : List (Fin n)) :
    ∃ k, fill chosen l = chosen ∪ (l.take k).toFinset ∧
      (minCandidates ≤ (fill chosen l).card ∨ l.take k = l) ∧
      (chosen.card ≤ minCandidates → (fill chosen l).card ≤ minCandidates) := by
  induction l generalizing chosen with
  | nil => exact ⟨0, by simp [fill], Or.inr rfl, id⟩
  | cons index rest ih =>
      by_cases enough : minCandidates ≤ chosen.card
      · rw [fill_of_enough enough]
        exact ⟨0, by simp, Or.inl enough, id⟩
      · rw [fill, if_neg enough]
        obtain ⟨k, added, ends, bound⟩ := ih (insert index chosen)
        refine ⟨k + 1, ?_, ?_, ?_⟩
        · rw [added, List.take_succ_cons, List.toFinset_cons, Finset.insert_union,
            Finset.union_insert]
        · rw [List.take_succ_cons]
          exact ends.imp id (congrArg (index :: ·))
        · intro _
          have := Finset.card_insert_le index chosen
          exact bound (by omega)

/-! ### The choice -/

section

variable (cues : List Cue) (ps : List Passage)

theorem chosen_eq : chosen cues ps = fill (picked cues ps).toFinset (List.finRange ps.length) := rfl

theorem card_picked :
    (picked cues ps).toFinset.card = min (matching cues ps).length maxCandidates := by
  rw [List.toFinset_card_of_nodup (picked_nodup cues ps), length_picked]

theorem chosen_of_enough (enough : minCandidates ≤ (matching cues ps).length) :
    chosen cues ps = (picked cues ps).toFinset := by
  rw [chosen_eq]
  apply fill_of_enough
  rw [card_picked]
  exact le_min enough (by decide)

theorem card_chosen :
    (chosen cues ps).card =
      if minCandidates ≤ (matching cues ps).length then min (matching cues ps).length maxCandidates
      else min minCandidates ps.length := by
  have capacity := Finset.card_le_univ (chosen cues ps)
  rw [Fintype.card_fin] at capacity
  split
  · next enough => rw [chosen_of_enough cues ps enough, card_picked]
  · next few =>
      obtain ⟨k, added, ends, bound⟩ := fill_spec (picked cues ps).toFinset
        (List.finRange ps.length)
      rw [← chosen_eq] at added ends bound
      have small : (picked cues ps).toFinset.card ≤ minCandidates := by
        rw [card_picked]
        omega
      have atMost := bound small
      obtain full | all := ends
      · omega
      · have everything : chosen cues ps = Finset.univ := by
          rw [added, all]
          ext index
          simp
        rw [everything, Finset.card_univ, Fintype.card_fin] at atMost ⊢
        omega

/-- Short documents yield what exists. -/
theorem mem_chosen_of_few (few : ps.length ≤ minCandidates) (index : Fin ps.length) :
    index ∈ chosen cues ps := by
  have bound : (matching cues ps).length ≤ ps.length := by
    have := List.length_filter_le (fun index => anyCue cues (ps.get index).text)
      (List.finRange ps.length)
    rwa [List.length_finRange] at this
  have all : (chosen cues ps).card = Fintype.card (Fin ps.length) := by
    rw [card_chosen, Fintype.card_fin]
    have : minCandidates ≤ maxCandidates := by decide
    split
    · omega
    · omega
  rw [(Finset.card_eq_iff_eq_univ _).mp all]
  exact Finset.mem_univ index

theorem picked_subset_chosen {index : Fin ps.length} (member : index ∈ picked cues ps) :
    index ∈ chosen cues ps := by
  obtain ⟨k, added, -⟩ := fill_spec (picked cues ps).toFinset (List.finRange ps.length)
  rw [chosen_eq, added, Finset.mem_union]
  exact Or.inl (List.mem_toFinset.mpr member)

/-- A chosen passage that no cue matches means that all matching ones are chosen. -/
theorem chosen_of_filler {index : Fin ps.length} (member : index ∈ chosen cues ps)
    (filler : anyCue cues (ps.get index).text = false) {other : Fin ps.length}
    (hother : other ∈ matching cues ps) : other ∈ chosen cues ps := by
  by_cases enough : minCandidates ≤ (matching cues ps).length
  · rw [chosen_of_enough cues ps enough, List.mem_toFinset] at member
    have found := (mem_matching cues ps).mp (picked_subset cues ps member)
    rw [filler] at found
    cases found
  · apply picked_subset_chosen
    apply picked_of_few _ _ _ hother
    exact (not_le.mp enough).le.trans (by decide)

/-- Increasing lists with the same members are the same. -/
theorem eq_of_mem_iff {n : ℕ} {l m : List (Fin n)} (hl : l.Pairwise (· < ·))
    (hm : m.Pairwise (· < ·)) (same : ∀ index, index ∈ l ↔ index ∈ m) : l = m := by
  apply @List.Perm.eq_of_pairwise _ (· < ·)
  · intro a b _ _ first second
    exact absurd second first.asymm
  · exact hl
  · exact hm
  · exact (List.perm_ext_iff_of_nodup (hl.imp ne_of_lt) (hm.imp ne_of_lt)).mpr same

/-- Document order is the order of the indices. -/
theorem sort_eq_filter {n : ℕ} (s : Finset (Fin n)) :
    s.sort (· ≤ ·) = (List.finRange n).filter (· ∈ s) := by
  apply eq_of_mem_iff
  · exact (s.sortedLT_sort).pairwise
  · exact (List.pairwise_lt_finRange n).filter _
  · intro index
    simp

/-- The chosen passages that no cue matches are the first such passages. -/
theorem fillers_lead :
    ((List.finRange ps.length).filter (· ∈ chosen cues ps)).filter
        (fun index => !anyCue cues (ps.get index).text) <+:
      (List.finRange ps.length).filter fun index => !anyCue cues (ps.get index).text := by
  obtain ⟨k, added, -⟩ := fill_spec (picked cues ps).toFinset (List.finRange ps.length)
  rw [← chosen_eq] at added
  have increasing := List.pairwise_lt_finRange ps.length
  have same : ((List.finRange ps.length).filter (· ∈ chosen cues ps)).filter
        (fun index => !anyCue cues (ps.get index).text) =
      ((List.finRange ps.length).take k).filter
        fun index => !anyCue cues (ps.get index).text := by
    apply eq_of_mem_iff
    · exact (increasing.filter _).filter _
    · exact increasing.take.filter _
    · intro index
      rw [List.mem_filter, List.mem_filter, List.mem_filter, decide_eq_true_eq, added,
        Finset.mem_union, List.mem_toFinset, List.mem_toFinset, Bool.not_eq_true']
      constructor
      · rintro ⟨⟨-, found | early⟩, filler⟩
        · have found := (mem_matching cues ps).mp (picked_subset cues ps found)
          rw [filler] at found
          cases found
        · exact ⟨early, filler⟩
      · rintro ⟨early, filler⟩
        exact ⟨⟨List.mem_finRange index, Or.inr early⟩, filler⟩
  rw [same]
  exact (List.take_prefix k _).filter _

end

/-! ### The candidates of a document -/

theorem chooseCandidates_eq (cues : List Cue) (document : String) :
    chooseCandidates cues document =
      ((List.finRange (passages document windowChars).length).filter
        (· ∈ chosen cues (passages document windowChars))).map fun index =>
          Candidate.ofPassage cues ((passages document windowChars).get index) := by
  rw [chooseCandidates]
  simp only [sort_eq_filter]

@[simp] theorem passage_ofPassage (cues : List Cue) (p : Passage) :
    (Candidate.ofPassage cues p).passage = p := rfl

@[simp] theorem cues_ofPassage (cues : List Cue) (p : Passage) :
    (Candidate.ofPassage cues p).cues = matchingCues cues p.text := rfl

/-- A filter on the passages, by index. -/
theorem filter_passages (ps : List Passage) (q : Passage → Bool) :
    ps.filter q = ((List.finRange ps.length).filter fun index => q (ps.get index)).map ps.get := by
  conv_lhs => rw [← List.map_get_finRange ps]
  rw [List.filter_map]
  rfl

/-- Passages start at different places. -/
theorem passages_starts (document : String) (window : ℤ) :
    (passages document window).Pairwise fun p q => p.start < q.start := by
  have ascending := passageSpans_ascending document window
  refine List.pairwise_map.mpr (ascending.apart.imp_of_mem ?_)
  intro s t hs _ apart
  exact (ascending.nonempty s hs).trans_le apart

theorem passages_nodup (document : String) (window : ℤ) : (passages document window).Nodup := by
  refine (passages_starts document window).imp fun earlier same => ?_
  rw [same] at earlier
  exact earlier.false

section

variable (cues : List Cue) (document : String)

theorem mem_chooseCandidates {c : Candidate} :
    c ∈ chooseCandidates cues document ↔
      ∃ index ∈ chosen cues (passages document windowChars),
        c = Candidate.ofPassage cues ((passages document windowChars).get index) := by
  rw [chooseCandidates_eq, List.mem_map]
  constructor
  · rintro ⟨index, member, rfl⟩
    exact ⟨index, of_decide_eq_true (List.mem_filter.mp member).2, rfl⟩
  · rintro ⟨index, member, rfl⟩
    exact ⟨index, List.mem_filter.mpr ⟨List.mem_finRange index, decide_eq_true member⟩, rfl⟩

theorem mem_chooseCandidates_of_few {p : Passage}
    (few : (passages document windowChars).length ≤ minCandidates)
    (member : p ∈ passages document windowChars) :
    Candidate.ofPassage cues p ∈ chooseCandidates cues document := by
  obtain ⟨index, rfl⟩ := List.mem_iff_get.mp member
  exact (mem_chooseCandidates cues document).mpr ⟨index, mem_chosen_of_few cues _ few index, rfl⟩

/-- The number of passages that match. -/
theorem length_matching (ps : List Passage) :
    (ps.filter fun p => anyCue cues p.text).length = (matching cues ps).length := by
  rw [filter_passages, List.length_map]
  rfl

theorem length_chooseCandidates :
    (chooseCandidates cues document).length =
      if minCandidates ≤ ((passages document windowChars).filter
        fun p => anyCue cues p.text).length
      then min ((passages document windowChars).filter fun p => anyCue cues p.text).length
        maxCandidates
      else min minCandidates (passages document windowChars).length := by
  rw [length_matching, ← card_chosen, chooseCandidates, List.length_map, Finset.length_sort]

theorem chooseCandidates_sublist :
    ((chooseCandidates cues document).map Candidate.passage).Sublist
      (passages document windowChars) := by
  rw [chooseCandidates_eq, List.map_map]
  have kept := (List.filter_sublist (l := List.finRange (passages document windowChars).length)
    (p := (· ∈ chosen cues (passages document windowChars)))).map
      (passages document windowChars).get
  rwa [List.map_get_finRange] at kept

theorem passage_mem_chooseCandidates {index : Fin (passages document windowChars).length} :
    (passages document windowChars).get index ∈
        (chooseCandidates cues document).map Candidate.passage ↔
      index ∈ chosen cues (passages document windowChars) := by
  rw [List.mem_map]
  constructor
  · rintro ⟨c, hc, same⟩
    obtain ⟨other, member, rfl⟩ := (mem_chooseCandidates cues document).mp hc
    rw [passage_ofPassage] at same
    rwa [← List.nodup_iff_injective_get.mp (passages_nodup document windowChars) same]
  · intro member
    exact ⟨_, (mem_chooseCandidates cues document).mpr ⟨index, member, rfl⟩, rfl⟩

/-- A greater score of another passage is a better place in the ranking. -/
theorem beats_of_score_lt {index other : Fin (passages document windowChars).length}
    (less : score cues (passages document windowChars) index <
      score cues (passages document windowChars) other) :
    Beats cues ((passages document windowChars).get other)
      ((passages document windowChars).get index) := by
  rw [score, score, Prod.Lex.toLex_lt_toLex] at less
  obtain fewer | ⟨same, less⟩ := less
  · exact Or.inl fewer
  · refine Or.inr ⟨same, ?_⟩
    rw [Prod.Lex.toLex_lt_toLex] at less
    obtain fewer | ⟨same, less⟩ := less
    · exact Or.inl fewer
    · refine Or.inr ⟨same, ?_⟩
      rw [Prod.Lex.toLex_lt_toLex] at less
      obtain later | ⟨same, before⟩ := less
      · simp only at later
        omega
      · have starts := List.pairwise_iff_getElem.mp (passages_starts document windowChars)
          index other index.isLt other.isLt before
        simp only [List.get_eq_getElem] at same starts
        omega

/-- A matching passage is left out only for five that are better. -/
theorem beats_of_left_out {p : Passage} (member : p ∈ passages document windowChars)
    (found : anyCue cues p.text = true)
    (out : p ∉ (chooseCandidates cues document).map Candidate.passage) :
    (chooseCandidates cues document).length = maxCandidates ∧
      ∀ c ∈ chooseCandidates cues document, Beats cues c.passage p := by
  obtain ⟨index, rfl⟩ := List.mem_iff_get.mp member
  rw [passage_mem_chooseCandidates] at out
  have isMatching := (mem_matching cues _).mpr found
  have notPicked : index ∉ picked cues _ := fun early => out (picked_subset_chosen cues _ early)
  have many : maxCandidates < (matching cues (passages document windowChars)).length := by
    by_contra few
    exact notPicked (picked_of_few cues _ (not_lt.mp few) isMatching)
  have enough : minCandidates ≤ (matching cues (passages document windowChars)).length :=
    le_trans (by decide) many.le
  constructor
  · rw [length_chooseCandidates, length_matching, if_pos enough, min_eq_right many.le]
  · intro c hc
    obtain ⟨other, hother, rfl⟩ := (mem_chooseCandidates cues document).mp hc
    rw [chosen_of_enough cues _ enough, List.mem_toFinset] at hother
    exact beats_of_score_lt cues document (score_lt_of_left_out cues _ isMatching notPicked hother)

/-- The candidates without cues are the first passages that match none. -/
theorem fillers_first :
    ((chooseCandidates cues document).filter fun c => c.cues = []).map Candidate.passage <+:
      (passages document windowChars).filter fun p => !anyCue cues p.text := by
  have first := (fillers_lead cues (passages document windowChars)).map
    (passages document windowChars).get
  rw [filter_passages, chooseCandidates_eq, List.filter_map, List.map_map]
  have same : ∀ index : Fin (passages document windowChars).length,
      decide ((Candidate.ofPassage cues ((passages document windowChars).get index)).cues = []) =
        !anyCue cues ((passages document windowChars).get index).text := by
    intro index
    rw [cues_ofPassage, ← Bool.coe_iff_coe, decide_eq_true_eq, matchingCues_eq_nil_iff,
      Bool.not_eq_true']
  simp only [Function.comp_def, same]
  exact first

end

/-- What `candidates` returns for a field with cues: as many passages as announced, in document
order and each once, with exactly the cues that match; fillers only behind all that match and
the earliest ones; and no matching passage left out but for five better ones. -/
theorem candidates_select {fieldCues : String → Option (List Cue)} {field : String}
    {cues : List Cue} (known : fieldCues field = some cues) (document : String) :
    ∃ returned, candidates fieldCues field document = some returned ∧
      (returned.length =
        if 3 ≤ ((passages document windowChars).filter fun p => anyCue cues p.text).length
        then min ((passages document windowChars).filter fun p => anyCue cues p.text).length 5
        else min 3 (passages document windowChars).length) ∧
      (returned.map Candidate.passage).Sublist (passages document windowChars) ∧
      (returned.Pairwise fun a b => a.start < b.start) ∧
      (∀ c ∈ returned, c.cues = (cues.filter fun cue => cue.search c.text).map Cue.name) ∧
      (∀ c ∈ returned, c.cues = [] → ∀ p ∈ passages document windowChars,
        anyCue cues p.text = true → p ∈ returned.map Candidate.passage) ∧
      (∀ p ∈ passages document windowChars, anyCue cues p.text = true →
        p ∉ returned.map Candidate.passage →
          returned.length = 5 ∧ ∀ c ∈ returned, Beats cues c.passage p) ∧
      (returned.filter fun c => c.cues = []).map Candidate.passage <+:
        (passages document windowChars).filter fun p => !anyCue cues p.text := by
  refine ⟨chooseCandidates cues document, by rw [candidates, known, Option.map_some],
    length_chooseCandidates cues document, chooseCandidates_sublist cues document, ?_, ?_, ?_, ?_,
    fillers_first cues document⟩
  · have starts := (passages_starts document windowChars).sublist
      (chooseCandidates_sublist cues document)
    rwa [List.pairwise_map] at starts
  · intro c hc
    obtain ⟨index, -, rfl⟩ := (mem_chooseCandidates cues document).mp hc
    rfl
  · intro c hc none p hp found
    obtain ⟨index, member, rfl⟩ := (mem_chooseCandidates cues document).mp hc
    obtain ⟨other, rfl⟩ := List.mem_iff_get.mp hp
    rw [cues_ofPassage, matchingCues_eq_nil_iff] at none
    rw [passage_mem_chooseCandidates]
    exact chosen_of_filler cues _ member none ((mem_matching cues _).mpr found)
  · intro p hp found out
    exact beats_of_left_out cues document hp found out

/-- The cue `%`, a literal without word boundaries. -/
def percentCue : Cue where
  name := "%"
  hits text := text.toList.count '%'
  search text := text.toList.contains '%'
  search_iff text := by
    rw [List.contains_iff_mem, ← List.count_pos_iff, Nat.pos_iff_ne_zero]

/-- One match among four passages: that one and two fillers. -/
theorem candidates_select_percent :
    ∃ returned, candidates (fun _ => some [percentCue]) "blast_radius"
      "One.\n\nTwo.\n\nThree.\n\n40% failed." = some returned ∧ returned.length = 3 := by
  obtain ⟨returned, result, length, -⟩ :=
    @candidates_select (fun _ => some [percentCue]) "blast_radius" [percentCue] rfl
      "One.\n\nTwo.\n\nThree.\n\n40% failed."
  refine ⟨returned, result, ?_⟩
  rw [length, if_neg (by decide)]
  decide

end IncidentPipeline
