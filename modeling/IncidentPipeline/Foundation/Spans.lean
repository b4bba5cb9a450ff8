import Mathlib.Tactic

/-!
# Spans

Half-open spans of positions in a sequence, lists of spans that follow each other, and
the pass that joins neighbours: it holds one current span, and each next span either
extends it or closes it.
-/

namespace Spans

/-- The positions from `start` up to `stop`. -/
structure Span where
  start : ℕ
  stop : ℕ
deriving DecidableEq, Repr

/-- Reading behind the first of two sequences is reading the second. -/
theorem getElem?_behind {α : Type*} (front back : List α) (k : ℕ) :
    (front ++ back)[front.length + k]? = back[k]? := by
  rw [List.getElem?_append_right (Nat.le_add_right _ _), Nat.add_sub_cancel_left]

namespace Span

def Contains (s : Span) (i : ℕ) : Prop := s.start ≤ i ∧ i < s.stop

/-- From the first position of `a` to the last one of `b`. -/
def merge (a b : Span) : Span := ⟨a.start, b.stop⟩

@[simp] theorem merge_start (a b : Span) : (a.merge b).start = a.start := rfl
@[simp] theorem merge_stop (a b : Span) : (a.merge b).stop = b.stop := rfl

/-- The elements of `xs` at the positions of the span. -/
def slice {α : Type*} (s : Span) (xs : List α) : List α :=
  (xs.drop s.start).take (s.stop - s.start)

theorem length_slice {α : Type*} {s : Span} {xs : List α} (inside : s.stop ≤ xs.length) :
    (s.slice xs).length = s.stop - s.start := by
  rw [slice, List.length_take, List.length_drop]
  omega

theorem slice_getElem? {α : Type*} (s : Span) (xs : List α) {k : ℕ}
    (h : k < s.stop - s.start) : (s.slice xs)[k]? = xs[s.start + k]? := by
  rw [slice, List.getElem?_take_of_lt h, List.getElem?_drop]

/-- Reading a slice is reading the sequence at a position of the span. -/
theorem getElem?_of_slice {α : Type*} {s : Span} {xs : List α} {k : ℕ} {x : α}
    (read : (s.slice xs)[k]? = some x) : s.Contains (s.start + k) ∧ xs[s.start + k]? = some x := by
  have short : k < s.stop - s.start := by
    have bound : k < (s.slice xs).length := (List.getElem?_eq_some_iff.mp read).1
    rw [slice, List.length_take] at bound
    omega
  rw [slice_getElem? s xs short] at read
  exact ⟨⟨by omega, by omega⟩, read⟩

theorem mem_slice {α : Type*} {s : Span} {xs : List α} {x : α} :
    x ∈ s.slice xs ↔ ∃ i, s.Contains i ∧ xs[i]? = some x := by
  constructor
  · intro member
    obtain ⟨k, read⟩ := List.mem_iff_getElem?.mp member
    exact ⟨s.start + k, getElem?_of_slice read⟩
  · rintro ⟨i, ⟨low, high⟩, read⟩
    apply List.mem_iff_getElem?.mpr
    refine ⟨i - s.start, ?_⟩
    rw [slice_getElem? s xs (by omega), Nat.add_sub_cancel' low]
    exact read

theorem slice_all {α : Type*} (xs : List α) : (mk 0 xs.length).slice xs = xs := by
  rw [slice, List.drop_zero, Nat.sub_zero, List.take_length]

/-- The middle of a sequence, as a slice of it. -/
theorem slice_middle {α : Type*} (front middle back : List α) :
    (mk front.length (front.length + middle.length)).slice (front ++ (middle ++ back)) =
      middle := by
  rw [slice, List.drop_left, Nat.add_sub_cancel_left, List.take_left]

/-- A slice, split at one of its positions. -/
theorem slice_split {α : Type*} {s : Span} {xs : List α} {i : ℕ} {x : α} (inside : s.Contains i)
    (read : xs[i]? = some x) :
    s.slice xs = (mk s.start i).slice xs ++ x :: (mk (i + 1) s.stop).slice xs := by
  obtain ⟨low, high⟩ := inside
  obtain ⟨bound, rfl⟩ := List.getElem?_eq_some_iff.mp read
  have length : s.stop - s.start = (i - s.start) + (s.stop - (i + 1) + 1) := by omega
  rw [slice, slice, slice, length, List.take_add, List.drop_drop, Nat.add_sub_cancel' low,
    List.drop_eq_getElem_cons bound, List.take_succ_cons]

end Span

/-! ### Spans that follow each other -/

/-- No span is empty, and each one ends before any later one starts. -/
structure Ascending (ss : List Span) : Prop where
  nonempty : ∀ s ∈ ss, s.start < s.stop
  apart : ss.Pairwise fun a b => a.stop ≤ b.start

theorem ascending_nil : Ascending [] := ⟨by simp, List.Pairwise.nil⟩

theorem ascending_cons {s : Span} {ss : List Span} :
    Ascending (s :: ss) ↔ s.start < s.stop ∧ (∀ t ∈ ss, s.stop ≤ t.start) ∧ Ascending ss := by
  constructor
  · rintro ⟨nonempty, apart⟩
    rw [List.pairwise_cons] at apart
    exact ⟨nonempty s (by simp), apart.1, fun t ht => nonempty t (by simp [ht]), apart.2⟩
  · rintro ⟨first, later, rest⟩
    refine ⟨?_, List.pairwise_cons.mpr ⟨later, rest.apart⟩⟩
    intro t ht
    obtain rfl | ht := List.mem_cons.mp ht
    · exact first
    · exact rest.nonempty t ht

/-- No position belongs to two spans. -/
theorem Ascending.unique {ss : List Span} (ascending : Ascending ss) {a b : Span} (ha : a ∈ ss)
    (hb : b ∈ ss) {i : ℕ} (hai : a.Contains i) (hbi : b.Contains i) : a = b := by
  induction ss with
  | nil => cases ha
  | cons s ss ih =>
      obtain ⟨-, later, rest⟩ := ascending_cons.mp ascending
      rw [Span.Contains] at hai hbi
      obtain rfl | ta := List.mem_cons.mp ha
      · obtain rfl | tb := List.mem_cons.mp hb
        · rfl
        · have := later b tb
          omega
      · obtain rfl | tb := List.mem_cons.mp hb
        · have := later a ta
          omega
        · exact ih rest ta tb

/-- A position between two spans that no span contains lies between two neighbours. -/
theorem Ascending.neighbours {ss : List Span} (ascending : Ascending ss) {i : ℕ}
    (outside : ∀ s ∈ ss, ¬ s.Contains i) {a b : Span} (ha : a ∈ ss) (hb : b ∈ ss)
    (low : a.stop ≤ i) (high : i < b.start) :
    ∃ front s t back, ss = front ++ s :: t :: back ∧ s.stop ≤ i ∧ i < t.start := by
  induction ss generalizing a with
  | nil => cases ha
  | cons s ss ih =>
      obtain ⟨first, later, rest⟩ := ascending_cons.mp ascending
      have stops : s.stop ≤ i := by
        obtain rfl | ta := List.mem_cons.mp ha
        · exact low
        · have := later a ta
          have := rest.nonempty a ta
          omega
      have behind : b ∈ ss := by
        obtain rfl | tb := List.mem_cons.mp hb
        · omega
        · exact tb
      cases ss with
      | nil => cases behind
      | cons t ss =>
          by_cases here : i < t.start
          · exact ⟨[], s, t, ss, rfl, stops, here⟩
          · have second : ¬ (t.start ≤ i ∧ i < t.stop) := outside t (by simp)
            obtain ⟨front, u, v, back, split, found⟩ := ih rest
              (fun u hu => outside u (by simp [hu])) List.mem_cons_self behind (by omega)
            exact ⟨s :: front, u, v, back, by rw [split, List.cons_append], found⟩

/-- No span reaches into the gap between two neighbours. -/
theorem Ascending.gap_empty {front back : List Span} {s t : Span}
    (ascending : Ascending (front ++ s :: t :: back)) {u : Span}
    (hu : u ∈ front ++ s :: t :: back) : u.stop ≤ s.stop ∨ t.start ≤ u.start := by
  have apart := List.pairwise_append.mp ascending.apart
  obtain ⟨-, tail⟩ := List.pairwise_cons.mp apart.2.1
  obtain ⟨further, -⟩ := List.pairwise_cons.mp tail
  obtain before | hu := List.mem_append.mp hu
  · have := apart.2.2 u before s (by simp)
    have := ascending.nonempty s (by simp)
    omega
  · obtain rfl | hu := List.mem_cons.mp hu
    · exact Or.inl le_rfl
    · obtain rfl | hu := List.mem_cons.mp hu
      · exact Or.inr le_rfl
      · have := further u hu
        have := ascending.nonempty t (by simp)
        omega

/-! ### Joining neighbours -/

variable (join : Span → Span → Bool)

/-- The pass over the spans that follow `current`. -/
def pack (current : Span) : List Span → List Span
  | [] => [current]
  | next :: rest =>
      if join current next then pack (current.merge next) rest else current :: pack next rest

/-- The pairs on which the pass consults `join`. -/
def comparisons (current : Span) : List Span → List (Span × Span)
  | [] => []
  | next :: rest =>
      (current, next) ::
        comparisons (if join current next then current.merge next else next) rest

variable {join}

theorem Ascending.merge {current next : Span} {rest : List Span}
    (ascending : Ascending (current :: next :: rest)) : Ascending (current.merge next :: rest) := by
  obtain ⟨first, later, tail⟩ := ascending_cons.mp ascending
  obtain ⟨second, further, tail⟩ := ascending_cons.mp tail
  have : current.stop ≤ next.start := later next (by simp)
  refine ascending_cons.mpr ⟨?_, further, tail⟩
  simp only [Span.merge_start, Span.merge_stop]
  omega

/-- The first packed span starts where the current one does. -/
theorem head_pack (current : Span) (rest : List Span) :
    ∃ stop more, pack join current rest = ⟨current.start, stop⟩ :: more := by
  induction rest generalizing current with
  | nil => exact ⟨current.stop, [], rfl⟩
  | cons next rest ih =>
      rw [pack]
      split
      · exact ih (current.merge next)
      · exact ⟨current.stop, _, rfl⟩

/-- Each packed span starts where one of the spans does and stops where one does. -/
theorem ends_of_mem_pack {current p : Span} {rest : List Span}
    (member : p ∈ pack join current rest) :
    (∃ a ∈ current :: rest, p.start = a.start) ∧ ∃ b ∈ current :: rest, p.stop = b.stop := by
  induction rest generalizing current with
  | nil =>
      obtain rfl := List.mem_singleton.mp member
      exact ⟨⟨p, by simp⟩, ⟨p, by simp⟩⟩
  | cons next rest ih =>
      rw [pack] at member
      split at member
      · obtain ⟨⟨a, ha, starts⟩, b, hb, stops⟩ := ih member
        constructor
        · obtain rfl | ha := List.mem_cons.mp ha
          · exact ⟨current, by simp, starts⟩
          · exact ⟨a, by simp [ha], starts⟩
        · obtain rfl | hb := List.mem_cons.mp hb
          · exact ⟨next, by simp, stops⟩
          · exact ⟨b, by simp [hb], stops⟩
      · obtain rfl | later := List.mem_cons.mp member
        · exact ⟨⟨p, by simp⟩, ⟨p, by simp⟩⟩
        · obtain ⟨⟨a, ha, starts⟩, b, hb, stops⟩ := ih later
          exact ⟨⟨a, List.mem_cons_of_mem _ ha, starts⟩, b, List.mem_cons_of_mem _ hb, stops⟩

theorem ascending_pack {current : Span} {rest : List Span}
    (ascending : Ascending (current :: rest)) : Ascending (pack join current rest) := by
  induction rest generalizing current with
  | nil => exact ascending
  | cons next rest ih =>
      rw [pack]
      split
      · exact ih ascending.merge
      · obtain ⟨first, later, tail⟩ := ascending_cons.mp ascending
        refine ascending_cons.mpr ⟨first, ?_, ih tail⟩
        intro p hp
        obtain ⟨⟨a, ha, starts⟩, -⟩ := ends_of_mem_pack hp
        rw [starts]
        exact later a ha

/-- The pass loses none of the spans. -/
theorem pack_covers {current : Span} {rest : List Span} (ascending : Ascending (current :: rest)) :
    ∀ s ∈ current :: rest, ∃ p ∈ pack join current rest, p.start ≤ s.start ∧ s.stop ≤ p.stop := by
  induction rest generalizing current with
  | nil =>
      intro s hs
      exact ⟨s, hs, le_rfl, le_rfl⟩
  | cons next rest ih =>
      obtain ⟨first, later, tail⟩ := ascending_cons.mp ascending
      have gap : current.stop ≤ next.start := later next (by simp)
      have second : next.start < next.stop := tail.nonempty next (by simp)
      intro s hs
      rw [pack]
      split
      · have cover := ih ascending.merge
        obtain ⟨p, hp, low, high⟩ := cover (current.merge next) (by simp)
        simp only [Span.merge_start, Span.merge_stop] at low high
        obtain rfl | hs := List.mem_cons.mp hs
        · exact ⟨p, hp, low, by omega⟩
        · obtain rfl | hs := List.mem_cons.mp hs
          · exact ⟨p, hp, by omega, high⟩
          · exact cover s (by simp [hs])
      · obtain rfl | hs := List.mem_cons.mp hs
        · exact ⟨s, by simp, le_rfl, le_rfl⟩
        · obtain ⟨p, hp, inside⟩ := ih tail s hs
          exact ⟨p, by simp [hp], inside⟩

/-- A packed span is one of the spans, or the last join that made it was allowed. -/
theorem mem_pack_cases {current p : Span} {rest : List Span}
    (member : p ∈ pack join current rest) :
    p ∈ current :: rest ∨
      ∃ pair ∈ comparisons join current rest, join pair.1 pair.2 ∧ p = pair.1.merge pair.2 := by
  induction rest generalizing current with
  | nil => exact Or.inl member
  | cons next rest ih =>
      rw [pack] at member
      rw [comparisons]
      split at member
      · next joined =>
          rw [if_pos joined]
          obtain same | ⟨pair, compared, found⟩ := ih member
          · obtain rfl | same := List.mem_cons.mp same
            · exact Or.inr ⟨(current, next), by simp, joined, rfl⟩
            · exact Or.inl (by simp [same])
          · exact Or.inr ⟨pair, List.mem_cons_of_mem _ compared, found⟩
      · next apart =>
          rw [if_neg apart]
          obtain rfl | later := List.mem_cons.mp member
          · exact Or.inl (by simp)
          · obtain same | ⟨pair, compared, found⟩ := ih later
            · exact Or.inl (List.mem_cons_of_mem _ same)
            · exact Or.inr ⟨pair, List.mem_cons_of_mem _ compared, found⟩

/-- Neighbours were compared as they stand, and `join` refused: the first packed span
could not take the first span of the second one. -/
theorem pack_greedy {current : Span} {rest : List Span} (ascending : Ascending (current :: rest)) :
    (pack join current rest).IsChain fun p q =>
      ∃ s ∈ rest, s.start = q.start ∧ s.stop ≤ q.stop ∧ join p s = false := by
  induction rest generalizing current with
  | nil => exact List.isChain_singleton current
  | cons next rest ih =>
      obtain ⟨first, later, tail⟩ := ascending_cons.mp ascending
      have weaken : ∀ p q : Span,
          (∃ s ∈ rest, s.start = q.start ∧ s.stop ≤ q.stop ∧ join p s = false) →
          ∃ s ∈ next :: rest, s.start = q.start ∧ s.stop ≤ q.stop ∧ join p s = false := by
        rintro p q ⟨s, hs, found⟩
        exact ⟨s, by simp [hs], found⟩
      rw [pack]
      split
      · exact (ih ascending.merge).imp weaken
      · next apart =>
          have cover := @pack_covers join _ _ tail next (by simp)
          have chain := (ih tail).imp weaken
          have packed := @ascending_pack join _ _ tail
          obtain ⟨stop, more, starts⟩ := @head_pack join next rest
          rw [starts] at cover chain packed ⊢
          refine List.isChain_cons_cons.mpr ⟨⟨next, by simp, rfl, ?_, by simpa using apart⟩, chain⟩
          obtain ⟨p, hp, low, high⟩ := cover
          obtain rfl | hp := List.mem_cons.mp hp
          · exact high
          · have := (ascending_cons.mp packed).2.1 p hp
            have := (ascending_cons.mp packed).1
            simp only at *
            omega

/-- A position of a packed span lies in one of the spans or in a gap that a join closed. -/
theorem gap_or_inside {current p : Span} {rest : List Span} (member : p ∈ pack join current rest)
    {i : ℕ} (inside : p.Contains i) :
    (∃ s ∈ current :: rest, s.Contains i) ∨
      ∃ pair ∈ comparisons join current rest,
        join pair.1 pair.2 ∧ pair.1.stop ≤ i ∧ i < pair.2.start := by
  induction rest generalizing current with
  | nil => exact Or.inl ⟨p, member, inside⟩
  | cons next rest ih =>
      rw [pack] at member
      rw [comparisons]
      split at member
      · next joined =>
          rw [if_pos joined]
          obtain ⟨s, hs, found⟩ | ⟨pair, compared, found⟩ := ih member
          · obtain rfl | hs := List.mem_cons.mp hs
            · rw [Span.Contains, Span.merge_start, Span.merge_stop] at found
              by_cases front : i < current.stop
              · exact Or.inl ⟨current, by simp, found.1, front⟩
              · by_cases back : next.start ≤ i
                · exact Or.inl ⟨next, by simp, back, found.2⟩
                · exact Or.inr ⟨(current, next), by simp, joined, not_lt.mp front, not_le.mp back⟩
            · exact Or.inl ⟨s, by simp [hs], found⟩
          · exact Or.inr ⟨pair, List.mem_cons_of_mem _ compared, found⟩
      · next apart =>
          rw [if_neg apart]
          obtain rfl | later := List.mem_cons.mp member
          · exact Or.inl ⟨p, by simp, inside⟩
          · obtain ⟨s, hs, found⟩ | ⟨pair, compared, found⟩ := ih later
            · exact Or.inl ⟨s, List.mem_cons_of_mem _ hs, found⟩
            · exact Or.inr ⟨pair, List.mem_cons_of_mem _ compared, found⟩

/-- What a join made stays together. -/
theorem joined_inside {current : Span} {rest : List Span}
    (ascending : Ascending (current :: rest)) {pair : Span × Span}
    (compared : pair ∈ comparisons join current rest) (joined : join pair.1 pair.2) :
    ∃ p ∈ pack join current rest, p.start ≤ pair.1.start ∧ pair.2.stop ≤ p.stop := by
  induction rest generalizing current with
  | nil => cases compared
  | cons next rest ih =>
      rw [comparisons] at compared
      rw [pack]
      obtain rfl | compared := List.mem_cons.mp compared
      · rw [if_pos joined]
        exact pack_covers ascending.merge (current.merge next) (by simp)
      · split at compared
        · next together =>
            rw [if_pos together]
            exact ih ascending.merge compared
        · next apart =>
            rw [if_neg apart]
            obtain ⟨p, hp, found⟩ := ih (ascending_cons.mp ascending).2.2 compared
            exact ⟨p, by simp [hp], found⟩

theorem snd_mem_of_mem_comparisons {current : Span} {rest : List Span} {pair : Span × Span}
    (compared : pair ∈ comparisons join current rest) : pair.2 ∈ rest := by
  induction rest generalizing current with
  | nil => cases compared
  | cons next rest ih =>
      rw [comparisons] at compared
      obtain rfl | compared := List.mem_cons.mp compared
      · exact List.mem_cons_self
      · exact List.mem_cons_of_mem _ (ih compared)

theorem fst_proper_of_mem_comparisons {current : Span} {rest : List Span}
    (ascending : Ascending (current :: rest)) {pair : Span × Span}
    (compared : pair ∈ comparisons join current rest) : pair.1.start < pair.1.stop := by
  induction rest generalizing current with
  | nil => cases compared
  | cons next rest ih =>
      rw [comparisons] at compared
      obtain rfl | compared := List.mem_cons.mp compared
      · exact (ascending_cons.mp ascending).1
      · split at compared
        · exact ih ascending.merge compared
        · exact ih (ascending_cons.mp ascending).2.2 compared

/-- What is asked of the pairs compared, as long as it depends on where the first one
stops only, is asked of the neighbours among the spans. -/
theorem forall_comparisons_iff {Q : ℕ → Span → Prop} {current : Span} {rest : List Span} :
    (∀ pair ∈ comparisons join current rest, Q pair.1.stop pair.2) ↔
      (current :: rest).IsChain fun a b => Q a.stop b := by
  induction rest generalizing current with
  | nil => simp [comparisons]
  | cons next rest ih =>
      have stop : (if join current next then current.merge next else next).stop = next.stop := by
        split
        · rfl
        · rfl
      have later := @ih (if join current next then current.merge next else next)
      rw [List.isChain_cons, stop, ← List.isChain_cons (R := fun a b => Q a.stop b)] at later
      rw [comparisons, List.forall_mem_cons, later, List.isChain_cons_cons]

end Spans
