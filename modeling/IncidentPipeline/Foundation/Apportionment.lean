import IncidentPipeline.Foundation.Ranking

/-!
# Largest remainders

Seats are handed out in proportion to quotas that add up to the number of seats. Each party
gets the whole part of its quota, and what is left goes to the first parties of an order. As
the fractions add up to what is left and each is below one, the seats left over are no more
than the parties with a fraction; so if these come first, no other party is raised.
-/

namespace Apportionment

section Shares

variable {ι α : Type} [Field α] [LinearOrder α] [IsStrictOrderedRing α] [FloorRing α]

/-- The sum of the whole parts. -/
def whole (quota : ι → α) (parties : List ι) : ℕ := (parties.map fun i => ⌊quota i⌋₊).sum

/-- Seats of a party: the whole part of its quota, and one more if it is raised. -/
def seats [DecidableEq ι] (quota : ι → α) (raised : List ι) (i : ι) : ℕ :=
  ⌊quota i⌋₊ + if i ∈ raised then 1 else 0

variable {quota : ι → α} {parties : List ι} {total : ℕ}

theorem whole_add_fract (nonneg : ∀ i ∈ parties, 0 ≤ quota i) :
    (whole quota parties : α) + (parties.map fun i => Int.fract (quota i)).sum =
      (parties.map quota).sum := by
  induction parties with
  | nil => simp [whole]
  | cons i rest ih =>
      have first : (⌊quota i⌋₊ : α) = ⌊quota i⌋ :=
        natCast_floor_eq_intCast_floor (nonneg i List.mem_cons_self)
      have later := ih fun j member => nonneg j (List.mem_cons_of_mem i member)
      have parts := Int.floor_add_fract (quota i)
      rw [whole] at later
      simp only [whole, List.map_cons, List.sum_cons]
      push_cast at later ⊢
      linarith

theorem sum_fract_nonneg (quota : ι → α) (parties : List ι) :
    0 ≤ (parties.map fun i => Int.fract (quota i)).sum := by
  apply List.sum_nonneg
  intro x member
  obtain ⟨i, _, rfl⟩ := List.mem_map.mp member
  exact Int.fract_nonneg _

theorem sum_fract_le (quota : ι → α) (parties : List ι) :
    (parties.map fun i => Int.fract (quota i)).sum ≤
      (parties.countP fun i => 0 < Int.fract (quota i) : ℕ) := by
  induction parties with
  | nil => simp
  | cons i rest ih =>
      rw [List.map_cons, List.sum_cons, List.countP_cons]
      by_cases fraction : 0 < Int.fract (quota i)
      · have below := Int.fract_lt_one (quota i)
        simp only [fraction, decide_true, if_true]
        push_cast
        linarith
      · have none_ : Int.fract (quota i) = 0 :=
          le_antisymm (not_lt.mp fraction) (Int.fract_nonneg _)
        simpa [none_] using ih

/-- The whole parts do not exceed the seats. -/
theorem whole_le (nonneg : ∀ i ∈ parties, 0 ≤ quota i) (sum : (parties.map quota).sum = total) :
    whole quota parties ≤ total := by
  have parts := whole_add_fract nonneg
  have fractions := sum_fract_nonneg quota parties
  rw [sum] at parts
  have cast : (whole quota parties : α) ≤ total := by linarith
  exact_mod_cast cast

/-- The seats left over are no more than the parties with a fraction. -/
theorem left_le (nonneg : ∀ i ∈ parties, 0 ≤ quota i) (sum : (parties.map quota).sum = total) :
    total - whole quota parties ≤ parties.countP fun i => 0 < Int.fract (quota i) := by
  have parts := whole_add_fract nonneg
  have fractions := sum_fract_le quota parties
  rw [sum] at parts
  have cast : (total : α) ≤
      (whole quota parties + parties.countP fun i => 0 < Int.fract (quota i) : ℕ) := by
    push_cast
    linarith
  have bound : total ≤ whole quota parties + parties.countP fun i => 0 < Int.fract (quota i) := by
    exact_mod_cast cast
  omega

end Shares

/-! ### The parties that are raised -/

section Raised

variable {ι α β : Type} [Field α] [LinearOrder α] [IsStrictOrderedRing α] [FloorRing α]
  [LinearOrder β] [Zero β]

/-- Quotas of distinct parties, and an order of the parties by falling weight, where exactly
those with a fraction weigh something. -/
structure Ordered (quota : ι → α) (weight : ι → β) (parties order : List ι) (total : ℕ) :
    Prop where
  distinct : parties.Nodup
  nonneg : ∀ i ∈ parties, 0 ≤ quota i
  sum : (parties.map quota).sum = total
  perm : order.Perm parties
  falling : order.Pairwise fun i j => weight j ≤ weight i
  weighs : ∀ i ∈ parties, 0 < weight i ↔ 0 < Int.fract (quota i)

/-- The parties that get one of the seats left over. -/
def raised (quota : ι → α) (parties order : List ι) (total : ℕ) : List ι :=
  order.take (total - whole quota parties)

variable {quota : ι → α} {weight : ι → β} {parties order : List ι} {total : ℕ}

theorem Ordered.left_le (h : Ordered quota weight parties order total) :
    total - whole quota parties ≤ (order.filter fun i => 0 < weight i).length := by
  have bound := Apportionment.left_le h.nonneg h.sum
  have count : (order.countP fun i => 0 < weight i) =
      parties.countP fun i => 0 < Int.fract (quota i) := by
    rw [h.perm.countP_eq]
    apply List.countP_congr
    intro i member
    simpa using h.weighs i member
  rwa [← count, List.countP_eq_length_filter] at bound

/-- Whoever is raised has a fraction. -/
theorem Ordered.fract_pos (h : Ordered quota weight parties order total) {i : ι}
    (member : i ∈ raised quota parties order total) : 0 < Int.fract (quota i) := by
  have first := Ranking.filter_append_filter_not (l := order) (p := fun i => 0 < weight i)
    (h.falling.imp fun le positive => decide_eq_true ((of_decide_eq_true positive).trans_le le))
  have inside : i ∈ parties := h.perm.subset (List.mem_of_mem_take member)
  rw [raised, first, List.take_append_of_le_length h.left_le] at member
  have weighs := (List.mem_filter.mp (List.mem_of_mem_take member)).2
  exact (h.weighs i inside).mp (of_decide_eq_true weighs)

theorem Ordered.length_raised (h : Ordered quota weight parties order total) :
    (raised quota parties order total).length = total - whole quota parties := by
  have bound := h.left_le.trans (List.length_filter_le _ _)
  rw [raised, List.length_take, min_eq_left bound]

omit [IsStrictOrderedRing α] in
/-- Nobody is raised past a party with more weight. -/
theorem Ordered.weight_le (h : Ordered quota weight parties order total) {i j : ι}
    (up : i ∈ raised quota parties order total) (inside : j ∈ parties)
    (down : j ∉ raised quota parties order total) : weight j ≤ weight i := by
  have later : j ∈ order.drop (total - whole quota parties) := by
    have member := h.perm.mem_iff.mpr inside
    rw [← List.take_append_drop (total - whole quota parties) order, List.mem_append] at member
    exact member.resolve_left down
  have parts := h.falling
  rw [← List.take_append_drop (total - whole quota parties) order, List.pairwise_append] at parts
  exact parts.2.2 i up j later

variable [DecidableEq ι]

/-- A sublist of distinct parties is counted once over. -/
theorem sum_mem_of_sublist {chosen : List ι} (distinct : order.Nodup)
    (sublist : chosen.Sublist order) :
    (order.map fun i => if i ∈ chosen then 1 else 0).sum = chosen.length := by
  have counts : ∀ l : List ι, (l.map fun i => if i ∈ chosen then 1 else 0).sum =
      l.countP (· ∈ chosen) := by
    intro l
    induction l with
    | nil => rfl
    | cons i rest ih => simp only [List.map_cons, List.sum_cons, List.countP_cons, ih,
        decide_eq_true_eq, add_comm]
  have kept : (order.filter (· ∈ chosen)).Perm chosen := by
    apply (List.perm_ext_iff_of_nodup (distinct.filter _) (distinct.sublist sublist)).mpr
    intro i
    simp only [List.mem_filter, decide_eq_true_eq, and_iff_right_iff_imp]
    exact fun member => sublist.subset member
  rw [counts, List.countP_eq_length_filter, kept.length_eq]

/-- All seats are handed out. -/
theorem Ordered.sum_seats (h : Ordered quota weight parties order total) :
    (parties.map (seats quota (raised quota parties order total))).sum = total := by
  have bound := whole_le h.nonneg h.sum
  have extra : (parties.map fun i =>
      if i ∈ raised quota parties order total then 1 else 0).sum =
        (raised quota parties order total).length := by
    rw [← (h.perm.map _).sum_eq]
    exact sum_mem_of_sublist (h.perm.nodup_iff.mpr h.distinct) (List.take_sublist _ _)
  rw [h.length_raised] at extra
  show (parties.map fun i => ⌊quota i⌋₊ +
    if i ∈ raised quota parties order total then 1 else 0).sum = total
  rw [List.sum_map_add, extra, ← whole]
  omega

theorem Ordered.seats_eq_ceil (h : Ordered quota weight parties order total) {i : ι}
    (member : i ∈ raised quota parties order total) :
    seats quota (raised quota parties order total) i = ⌈quota i⌉₊ := by
  have fraction := h.fract_pos member
  have nonneg := h.nonneg i (h.perm.subset (List.mem_of_mem_take member))
  have below : (⌊quota i⌋₊ : α) < quota i := by
    rw [natCast_floor_eq_intCast_floor nonneg]
    linarith [Int.floor_add_fract (quota i)]
  rw [seats, if_pos member]
  symm
  rw [Nat.ceil_eq_iff (Nat.succ_ne_zero _)]
  exact ⟨by simpa using below, by exact_mod_cast (Nat.lt_floor_add_one (quota i)).le⟩

/-- A party has the floor or the ceiling of its quota. -/
theorem Ordered.seats_near (h : Ordered quota weight parties order total) (i : ι) :
    seats quota (raised quota parties order total) i = ⌊quota i⌋₊ ∨
      seats quota (raised quota parties order total) i = ⌈quota i⌉₊ := by
  by_cases member : i ∈ raised quota parties order total
  · exact .inr (h.seats_eq_ceil member)
  · left
    rw [seats, if_neg member, add_zero]

theorem Ordered.seats_le (h : Ordered quota weight parties order total) {i : ι} {size : ℕ}
    (within : quota i ≤ size) : seats quota (raised quota parties order total) i ≤ size := by
  have ceiling : ⌈quota i⌉₊ ≤ size := Nat.ceil_le.mpr within
  obtain floor | ceil := h.seats_near i
  · rw [floor]
    exact (Nat.floor_le_ceil _).trans ceiling
  · rwa [ceil]

end Raised

end Apportionment
