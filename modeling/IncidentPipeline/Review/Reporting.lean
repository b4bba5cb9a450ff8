import IncidentPipeline.Review.Ranking

/-!
# The order in which a pass reports

`RoutingResult.routed` is declared to be in rank order. The pass sorts the rows that its
`UPDATE` returns once more, by confidence and field name, where the rank order has the time
of creation in between.
-/

namespace IncidentPipeline

open Ranking Tables Transactions

theorem resultLe_iff {a b : RankedField} : resultLe a b = true ↔
    a.confidence < b.confidence ∨ (a.confidence = b.confidence ∧ a.field ≤ b.field) := by
  rw [resultLe]
  by_cases confidence : a.confidence = b.confidence
  · simp [confidence]
  · simp [confidence]

theorem resultLe_ranks : Ranks resultLe where
  total a b := by
    rw [Bool.or_eq_true, resultLe_iff, resultLe_iff]
    obtain h | h | h := lt_trichotomy a.confidence b.confidence
    · exact .inl (.inl h)
    · exact (String.le_total a.field b.field).imp (fun n => .inr ⟨h, n⟩)
        (fun n => .inr ⟨h.symm, n⟩)
    · exact .inr (.inl h)
  trans a b c first second := by
    rw [resultLe_iff] at first second ⊢
    obtain h | ⟨h, n⟩ := first
    · exact .inl (second.elim h.trans fun k => h.trans_eq k.1)
    · obtain k | ⟨k, m⟩ := second
      · exact .inl (h.trans_lt k)
      · exact .inr ⟨h.trans k, String.le_trans n m⟩

/-- Among the fields of one confidence the first `k` of the ranking come in Python's order of
the names, and those of one name as they stand in the table. -/
def NamesAgree (table ranked : List RankedField) (k : Nat) : Prop :=
  ∀ a b, [a, b].Sublist (ranked.take k) → a.confidence = b.confidence →
    a.field < b.field ∨ (a.field = b.field ∧ [a, b].Sublist table)

variable {collation : Collation} {d : Database}

/-- The ranking is by confidence first. -/
theorem confidence_le_of_ranked (linear : collation.Linear) {floor : ℚ} {rows : List FieldReview}
    {a b : RankedField}
    (pair : [a, b].Sublist ((rankedRows collation floor rows).map FieldReview.ranked)) :
    a.confidence ≤ b.confidence := by
  have sorted : ((rankedRows collation floor rows).map FieldReview.ranked).Pairwise
      (fun a b => a.confidence ≤ b.confidence) := by
    rw [List.pairwise_map]
    refine (linear.ranks.sorted _).imp fun ahead => ?_
    exact (rankLe_iff.mp ahead).elim le_of_lt fun h => h.1.le
  exact sorted.forall_sublist pair

/-- The rows of a table, and so the results made of them, are told apart by their ids. -/
theorem ranked_nodup {rows : List FieldReview} (keyed : Keyed FieldReview.id rows) :
    (rows.map FieldReview.ranked).Nodup := by
  apply List.Nodup.of_map RankedField.id
  rw [List.map_map]
  exact keyed

/-- Two results stand among the returned ones as they stand in the table. -/
theorem pair_returned_iff (keyed : Keyed FieldReview.id d.fieldReviews) {floor : ℚ}
    {budget : Option Int} {a b : RankedField}
    (pair : [a, b].Sublist
      ((admitted collation floor budget d.fieldReviews).map FieldReview.ranked)) :
    [a, b].Sublist ((returned collation floor budget d.fieldReviews).map FieldReview.ranked) ↔
      [a, b].Sublist (d.fieldReviews.map FieldReview.ranked) := by
  have part : ((returned collation floor budget d.fieldReviews).map FieldReview.ranked).Sublist
      (d.fieldReviews.map FieldReview.ranked) := List.filter_sublist.map _
  have perm := (@returned_perm collation _ keyed floor budget).map FieldReview.ranked
  have nodup := ranked_nodup keyed
  constructor
  · exact fun inside => inside.trans part
  · intro inside
    have nodup' := perm.nodup_iff.mp (nodup.sublist part)
    obtain first | second := pair_of_perm nodup' perm.symm pair
    · exact first
    · exact absurd (second.trans part) (pair_asymm nodup inside)

/-- How many rows a pass routes. -/
def routedCount (floor : ℚ) (budget : Option Int) (rows : List FieldReview) : Nat :=
  passSize budget (rows.countP (FieldReview.eligible floor)) (outstandingRows rows)

/-- Sorted by confidence and name, the routed rows are a prefix of the ranking exactly if the
names agree with it. -/
theorem reported_prefix_iff (linear : collation.Linear)
    (keyed : Keyed FieldReview.id d.fieldReviews) (floor : ℚ) (budget : Option Int) :
    ((returned collation floor budget d.fieldReviews).map FieldReview.ranked).mergeSort resultLe <+:
        (rankedRows collation floor d.fieldReviews).map FieldReview.ranked ↔
      NamesAgree (d.fieldReviews.map FieldReview.ranked)
        ((rankedRows collation floor d.fieldReviews).map FieldReview.ranked)
        (routedCount floor budget d.fieldReviews) := by
  have perm := (@returned_perm collation _ keyed floor budget).map FieldReview.ranked
  have nodup : ((returned collation floor budget d.fieldReviews).map FieldReview.ranked).Nodup :=
    (ranked_nodup keyed).sublist (List.filter_sublist.map _)
  have routes : ((rankedRows collation floor d.fieldReviews).map FieldReview.ranked).take
      (routedCount floor budget d.fieldReviews) =
      (admitted collation floor budget d.fieldReviews).map FieldReview.ranked := by
    rw [admitted, List.map_take]
    rfl
  have length : (((returned collation floor budget d.fieldReviews).map
      FieldReview.ranked).mergeSort resultLe).length =
        routedCount floor budget d.fieldReviews := by
    rw [List.length_mergeSort, perm.length_eq, List.length_map, length_admitted]
    rfl
  rw [List.prefix_iff_eq_take, length, NamesAgree, routes,
    resultLe_ranks.mergeSort_eq_iff nodup perm.symm]
  refine forall₃_congr fun a b pair => ?_
  have ranks : a.confidence ≤ b.confidence := by
    rw [← routes] at pair
    exact confidence_le_of_ranked linear (pair.trans (List.take_sublist _ _))
  rw [pair_returned_iff keyed pair, resultLe_iff, resultLe_iff]
  obtain less | equal := ranks.lt_or_eq
  · simp [less, less.ne, less.ne', less.not_gt]
  · simp only [equal, lt_irrefl, true_and, false_or, true_imp_iff]
    constructor
    · rintro ⟨first, tie⟩
      by_cases second : b.field ≤ a.field
      · exact .inr ⟨String.le_antisymm first second, tie second⟩
      · exact .inl (String.not_le.mp second)
    · rintro (before | ⟨same, inside⟩)
      · have behind : ¬ b.field ≤ a.field := String.not_le.mpr before
        exact ⟨(String.le_total _ _).resolve_right behind, fun second => absurd second behind⟩
      · exact ⟨same ▸ String.le_refl _, fun _ => inside⟩

/-- What a pass reports is the prefix of the ranking that it routed exactly if, among fields of
one confidence, the order of the names is the one of the ranking. -/
theorem routed_in_rank_order_iff (linear : collation.Linear) (legal : LegalReviews d.fieldReviews)
    (context : Context) (now : Time) (floor : ℚ) {budget : Option Int}
    (sane : ∀ b, budget = some b → 0 ≤ b) :
    ∃ ranked result,
      (rankEligible collation floor).serial postgres context ⟨d, false⟩ = (.ok ranked, ⟨d, false⟩) ∧
      (pass collation context now floor budget d).1 = .ok result ∧
      (result.routed <+: ranked ↔ NamesAgree (d.fieldReviews.map FieldReview.ranked) ranked
        (routedCount floor budget d.fieldReviews)) := by
  obtain ⟨result, passed, reported⟩ :=
    @routePending_serial collation now floor budget context d sane legal
  refine ⟨_, result, rankEligible_serial context floor, by rw [pass, passed], ?_⟩
  rw [reported]
  exact reported_prefix_iff linear legal.table.ids floor budget

/-- Two extractions, the second of which was made later. -/
def twoExtractions (earlier later : String) : Database :=
  { Database.empty with fieldReviews :=
      [{ openRow 1 earlier (3/10) with extractionId := 7, createdAt := 1 },
        { openRow 2 later (3/10) with extractionId := 8, createdAt := 2 }] }

theorem twoExtractions_legal (earlier later : String) :
    LegalReviews (twoExtractions earlier later).fieldReviews := by
  refine ⟨⟨?_, ?_⟩, ?_⟩
  · show [1, 2].Nodup
    decide
  · show [(7, earlier), (8, later)].Nodup
    simp
  · intro r hr
    obtain rfl | hr := List.mem_cons.mp hr
    · simp [FieldReview.checked_iff, openRow]
    · rw [List.mem_singleton.mp hr]
      simp [FieldReview.checked_iff, openRow]

/-- Both are eligible, and the one that was made first is ranked first. -/
theorem twoExtractions_ranked (earlier later : String) :
    rankedRows byCodePoint (7/10) (twoExtractions earlier later).fieldReviews =
      (twoExtractions earlier later).fieldReviews := by
  have eligible : (twoExtractions earlier later).fieldReviews.filter
      (FieldReview.eligible (7/10)) = (twoExtractions earlier later).fieldReviews := by
    rw [List.filter_eq_self]
    intro r hr
    simp only [twoExtractions, List.mem_cons, List.not_mem_nil, or_false] at hr
    obtain rfl | rfl := hr <;> norm_num [FieldReview.eligible, openRow]
  rw [rankedRows, eligible]
  apply List.mergeSort_of_pairwise
  simp [twoExtractions, openRow, rankLe]

/-- The names have to come in the order in which the extractions were made. -/
theorem twoExtractions_agree {earlier later : String} (differ : earlier ≠ later) :
    NamesAgree ((twoExtractions earlier later).fieldReviews.map FieldReview.ranked)
        ((rankedRows byCodePoint (7/10) (twoExtractions earlier later).fieldReviews).map
          FieldReview.ranked)
        (routedCount (7/10) none (twoExtractions earlier later).fieldReviews) ↔
      earlier < later := by
  have count : routedCount (7/10) none (twoExtractions earlier later).fieldReviews = 2 := by
    rw [routedCount, passSize, ← length_rankedRows byCodePoint, twoExtractions_ranked]
    rfl
  rw [count, twoExtractions_ranked]
  constructor
  · intro agree
    obtain before | ⟨same, _⟩ := agree _ _ (List.Sublist.refl _) rfl
    · exact before
    · exact absurd same differ
  · intro before a b pair _
    have both : [a, b] = [⟨1, 7, earlier, (3/10 : ℚ)⟩, ⟨2, 8, later, (3/10 : ℚ)⟩] :=
      pair.eq_of_length rfl
    obtain ⟨rfl, rfl⟩ : a = ⟨1, 7, earlier, (3/10 : ℚ)⟩ ∧ b = ⟨2, 8, later, (3/10 : ℚ)⟩ := by
      simpa using both
    exact .inl before

/-- With names in the order of creation the report is in rank order. -/
theorem routed_in_rank_order_two_extractions :
    ∃ ranked result,
      (rankEligible byCodePoint (7/10)).serial postgres ⟨.empty, []⟩
        ⟨twoExtractions "summary" "title", false⟩ =
          (.ok ranked, ⟨twoExtractions "summary" "title", false⟩) ∧
      (pass byCodePoint ⟨.empty, []⟩ 9 (7/10) none (twoExtractions "summary" "title")).1 =
        .ok result ∧
      result.routed <+: ranked := by
  obtain ⟨ranked, result, ranking, passed, iff⟩ :=
    routed_in_rank_order_iff byCodePoint_linear (twoExtractions_legal "summary" "title")
      ⟨.empty, []⟩ 9 (7/10) (by simp : ∀ b, (none : Option Int) = some b → 0 ≤ b)
  refine ⟨ranked, result, ranking, passed, iff.mpr ?_⟩
  rw [rankEligible_serial] at ranking
  cases ranking
  exact (twoExtractions_agree (by decide)).mpr (by decide)

/-- Of two fields of one confidence the pass reports the one that was made later first, when
its name comes first. -/
theorem routed_out_of_rank_order :
    ∃ ranked result,
      (rankEligible byCodePoint (7/10)).serial postgres ⟨.empty, []⟩
        ⟨twoExtractions "title" "summary", false⟩ =
          (.ok ranked, ⟨twoExtractions "title" "summary", false⟩) ∧
      (pass byCodePoint ⟨.empty, []⟩ 9 (7/10) none (twoExtractions "title" "summary")).1 =
        .ok result ∧
      ¬ result.routed <+: ranked := by
  have legal := twoExtractions_legal "title" "summary"
  obtain ⟨result, passed, reported⟩ :=
    @routePending_serial byCodePoint 9 (7/10) none ⟨.empty, []⟩ _ (by simp) legal
  refine ⟨_, result, rankEligible_serial _ _, by rw [pass, passed], ?_⟩
  rw [reported, reported_prefix_iff byCodePoint_linear legal.table.ids,
    twoExtractions_agree (by decide)]
  decide

end IncidentPipeline
