import Mathlib.Tactic

/-!
# Admission in rank order

A queue admits the first few of its ranked candidates. Where no two candidates tie, the
order is the only sorted one, so that it survives filtering; admitting twice is then
admitting once, and a stricter threshold keeps a prefix.
-/

namespace Ranking

variable {α : Type} {le : α → α → Bool}

/-- What makes a comparison a ranking. -/
structure Ranks (le : α → α → Bool) : Prop where
  total : ∀ a b, (le a b || le b a) = true
  trans : ∀ a b c, le a b = true → le b c = true → le a c = true

/-- Entries can be ranked by what is ranked of them. -/
theorem Ranks.comap {β : Type} (ranks : Ranks le) (f : β → α) : Ranks (fun a b => le (f a) (f b)) :=
  ⟨fun _ _ => ranks.total _ _, fun _ _ _ first second => ranks.trans _ _ _ first second⟩

theorem ranks_le {β : Type} [LinearOrder β] : Ranks fun a b : β => decide (a ≤ b) where
  total a b := by
    rw [Bool.or_eq_true, decide_eq_true_eq, decide_eq_true_eq]
    exact le_total a b
  trans a b c first second :=
    decide_eq_true ((of_decide_eq_true first).trans (of_decide_eq_true second))

/-- No two entries of the list tie. -/
def Untied (le : α → α → Bool) (l : List α) : Prop :=
  ∀ a ∈ l, ∀ b ∈ l, le a b = true → le b a = true → a = b

theorem Untied.of_subset {l l' : List α} (untied : Untied le l) (subset : ∀ a ∈ l', a ∈ l) :
    Untied le l' :=
  fun a ha b hb => untied a (subset a ha) b (subset b hb)

theorem untied_le {β : Type} [LinearOrder β] (l : List β) : Untied (fun a b => decide (a ≤ b)) l :=
  fun _ _ _ _ first second => le_antisymm (of_decide_eq_true first) (of_decide_eq_true second)

theorem Ranks.sorted (ranks : Ranks le) (l : List α) :
    (l.mergeSort le).Pairwise (fun a b => le a b = true) :=
  List.pairwise_mergeSort ranks.trans ranks.total l

/-- Without ties there is one way to sort. -/
theorem Ranks.unique (ranks : Ranks le) {l sorted : List α} (untied : Untied le l)
    (perm : sorted.Perm l) (order : sorted.Pairwise (fun a b => le a b = true)) :
    sorted = l.mergeSort le := by
  refine List.Perm.eq_of_pairwise ?_ order (ranks.sorted l) (perm.trans (l.mergeSort_perm le).symm)
  intro a b ha hb first second
  exact untied a (perm.subset ha) b (List.mem_mergeSort.mp hb) first second

/-- Nor does it matter in which order the entries come. -/
theorem Ranks.mergeSort_perm (ranks : Ranks le) {l l' : List α} (untied : Untied le l)
    (perm : l'.Perm l) : l'.mergeSort le = l.mergeSort le :=
  ranks.unique untied ((l'.mergeSort_perm le).trans perm) (ranks.sorted l')

/-- Sorting what is left is leaving it sorted. -/
theorem Ranks.mergeSort_filter (ranks : Ranks le) {l : List α} (untied : Untied le l)
    (p : α → Bool) : (l.filter p).mergeSort le = (l.mergeSort le).filter p := by
  symm
  apply ranks.unique
  · exact untied.of_subset fun a ha => (List.mem_filter.mp ha).1
  · exact (l.mergeSort_perm le).filter p
  · exact (ranks.sorted l).filter p

/-! ### Two ways to sort -/

theorem pair_asymm {l : List α} (nodup : l.Nodup) {a b : α} (first : [a, b].Sublist l) :
    ¬ [b, a].Sublist l := by
  classical
  have increasing : l.Pairwise (fun x y => l.idxOf x < l.idxOf y) := by
    rw [List.pairwise_iff_getElem]
    intro i j hi hj lt
    rwa [nodup.idxOf_getElem i hi, nodup.idxOf_getElem j hj]
  intro second
  have ahead := increasing.forall_sublist first
  have behind := increasing.forall_sublist second
  omega

theorem pair_total {l : List α} {a b : α} (ha : a ∈ l) (hb : b ∈ l) (differ : a ≠ b) :
    [a, b].Sublist l ∨ [b, a].Sublist l := by
  obtain ⟨front, back, rfl⟩ := List.append_of_mem ha
  obtain early | late := List.mem_append.mp hb
  · right
    exact (List.singleton_sublist.mpr early).append (List.singleton_sublist.mpr List.mem_cons_self)
  · left
    have later : b ∈ back := (List.mem_cons.mp late).resolve_left (Ne.symm differ)
    exact ((List.singleton_sublist.mpr later).cons_cons a).trans (List.sublist_append_right _ _)

/-- An arrangement of the list keeps two of its members or swaps them. -/
theorem pair_of_perm {l m : List α} (nodup : l.Nodup) (perm : l.Perm m) {a b : α}
    (pair : [a, b].Sublist l) : [a, b].Sublist m ∨ [b, a].Sublist m := by
  have differ : a ≠ b := by
    rintro rfl
    exact pair_asymm nodup pair pair
  have member : ∀ c ∈ [a, b], c ∈ m := fun c hc => perm.mem_iff.mp (pair.subset hc)
  exact pair_total (member a (by simp)) (member b (by simp)) differ

/-- A stable sort makes of `l` the arrangement `m` exactly if `m` is sorted and leaves those
that tie as they stand in `l`. -/
theorem Ranks.mergeSort_eq_iff (ranks : Ranks le) {l m : List α} (nodup : l.Nodup)
    (perm : m.Perm l) : l.mergeSort le = m ↔
      ∀ a b, [a, b].Sublist m → le a b = true ∧ (le b a = true → [a, b].Sublist l) := by
  have sorts := l.mergeSort_perm le
  have sortedNodup : (l.mergeSort le).Nodup := sorts.nodup_iff.mpr nodup
  have stable : ∀ {a b}, le a b = true → [a, b].Sublist l → [a, b].Sublist (l.mergeSort le) :=
    fun ahead pair => List.pair_sublist_mergeSort ranks.trans ranks.total ahead pair
  constructor
  · rintro rfl a b pair
    refine ⟨(ranks.sorted l).forall_sublist pair, fun behind => ?_⟩
    obtain first | second := pair_of_perm sortedNodup sorts pair
    · exact first
    · exact absurd (stable behind second) (pair_asymm sortedNodup pair)
  · intro arranged
    have nodupM : m.Nodup := perm.nodup_iff.mpr nodup
    -- Both are arranged by the places in `m`.
    refine List.Perm.eq_of_pairwise ?_ (?_ : List.Pairwise (fun a b => [a, b].Sublist m) _) ?_ ?_
    · intro a b _ _ first second
      exact absurd second (pair_asymm nodupM first)
    · refine List.pairwise_of_forall_sublist fun {a b} pair => ?_
      obtain first | second := pair_of_perm sortedNodup (sorts.trans perm.symm) pair
      · exact first
      · obtain ⟨behind, tie⟩ := arranged b a second
        have ahead := (ranks.sorted l).forall_sublist pair
        exact absurd (stable behind (tie ahead)) (pair_asymm sortedNodup pair)
    · exact List.pairwise_of_forall_sublist fun pair => pair
    · exact sorts.trans perm.symm

/-- A stable sort and a filter can be exchanged, ties or not. -/
theorem Ranks.mergeSort_filter_stable (ranks : Ranks le) {l : List α} (nodup : l.Nodup)
    (p : α → Bool) : (l.filter p).mergeSort le = (l.mergeSort le).filter p := by
  rw [ranks.mergeSort_eq_iff (nodup.filter p) ((l.mergeSort_perm le).filter p)]
  intro a b pair
  have sorted := pair.trans List.filter_sublist
  obtain ⟨ahead, tie⟩ := (ranks.mergeSort_eq_iff nodup (l.mergeSort_perm le)).mp rfl a b sorted
  refine ⟨ahead, fun behind => ?_⟩
  have kept : [a, b].filter p = [a, b] := by
    rw [List.filter_eq_self]
    exact fun c hc => (List.mem_filter.mp (pair.subset hc)).2
  have inside := (tie behind).filter p
  rwa [kept] at inside

/-- When the first of the sorted list is put behind all the others, the order of these stays. -/
theorem Ranks.mergeSort_requeue (ranks : Ranks le) {l t : List α} {h : α} {f : α → α}
    (nodup : l.Nodup) (sorted : l.mergeSort le = h :: t) (others : ∀ a ∈ t, f a = a)
    (behind : ∀ a ∈ t, le (f h) a = false) : (l.map f).mergeSort le = t ++ [f h] := by
  have ahead : ∀ a ∈ t, le a (f h) = true := by
    intro a ha
    have either := ranks.total a (f h)
    rwa [behind a ha, Bool.or_false] at either
  have perm : (h :: t).Perm l := sorted ▸ l.mergeSort_perm le
  have kept : t.map f = t := (List.map_congr_left others).trans (List.map_id t)
  have moved : (t ++ [f h]).Perm (l.map f) := by
    have mapped := perm.map f
    rw [List.map_cons, kept] at mapped
    exact (List.perm_append_singleton (f h) t).trans mapped
  have nodupT : t.Nodup := (List.nodup_cons.mp (perm.nodup_iff.mpr nodup)).2
  have fresh : f h ∉ t := by
    intro member
    have strict := behind _ member
    rw [ahead _ member] at strict
    cases strict
  have nodup' : (l.map f).Nodup := by
    rw [← moved.nodup_iff, ← List.concat_eq_append]
    exact nodupT.concat fresh
  rw [ranks.mergeSort_eq_iff nodup' moved]
  intro a b pair
  obtain ⟨front, back, parts, first, last⟩ := List.sublist_append_iff.mp pair
  obtain rfl | rfl := List.sublist_singleton.mp last
  · -- Both were behind the first one and have not moved.
    rw [List.append_nil] at parts
    subst parts
    have inside : [a, b].Sublist (l.mergeSort le) := by
      rw [sorted]
      exact first.trans (List.sublist_cons_self h t)
    obtain ⟨ahead, tie⟩ :=
      (ranks.mergeSort_eq_iff nodup (l.mergeSort_perm le)).mp rfl a b inside
    refine ⟨ahead, fun reverse => ?_⟩
    have mapped := (tie reverse).map f
    rwa [List.map_cons, List.map_cons, List.map_nil, others a (first.subset (by simp)),
      others b (first.subset (by simp))] at mapped
  · obtain ⟨rfl, rfl⟩ : front = [a] ∧ b = f h := by
      have reversed := congrArg List.reverse parts
      simp only [List.reverse_cons, List.reverse_append, List.reverse_nil, List.nil_append,
        List.singleton_append, List.cons.injEq] at reversed
      refine ⟨?_, reversed.1⟩
      rw [← List.reverse_reverse front, ← reversed.2]
      rfl
    have member : a ∈ t := first.subset (by simp)
    refine ⟨ahead a member, fun reverse => ?_⟩
    rw [behind a member] at reverse
    cases reverse

/-- What a condition that looks no further than the rank keeps is a prefix. -/
theorem filter_downClosed {l : List α} {p : α → Bool}
    (order : l.Pairwise (fun a b => le a b = true))
    (down : ∀ a b, le a b = true → p b = true → p a = true) : l.filter p <+: l := by
  induction l with
  | nil => simp
  | cons a rest ih =>
      obtain ⟨first, order⟩ := List.pairwise_cons.mp order
      by_cases h : p a = true
      · rw [List.filter_cons_of_pos h, List.cons_prefix_cons]
        exact ⟨rfl, ih order⟩
      · have none_later : rest.filter p = [] := by
          refine List.filter_eq_nil_iff.mpr fun b hb later => h (down a b (first b hb) later)
        rw [List.filter_cons_of_neg h, none_later]
        exact List.nil_prefix

/-- In a list where `p` does not hold behind a place where it fails, those with `p` come first. -/
theorem filter_append_filter_not {l : List α} {p : α → Bool}
    (down : l.Pairwise (fun a b => p b = true → p a = true)) :
    l = l.filter p ++ l.filter (fun a => !p a) := by
  induction l with
  | nil => rfl
  | cons a rest ih =>
      obtain ⟨first, down⟩ := List.pairwise_cons.mp down
      by_cases h : p a = true
      · rw [List.filter_cons_of_pos h, List.filter_cons_of_neg (by simpa using h), List.cons_append,
          ← ih down]
      · have none_later : rest.filter p = [] :=
          List.filter_eq_nil_iff.mpr fun b hb later => h (first b hb later)
        have all : rest.filter (fun a => !p a) = rest :=
          List.filter_eq_self.mpr fun b hb => by
            simpa using fun later => h (first b hb later)
        rw [List.filter_cons_of_neg h, none_later, List.filter_cons_of_pos (by simpa using h), all,
          List.nil_append]

/-- Whoever is admitted ranks no later than whoever is not. -/
theorem take_le_drop {l : List α} (order : l.Pairwise (fun a b => le a b = true)) (k : Nat) :
    ∀ a ∈ l.take k, ∀ b ∈ l.drop k, le a b = true := by
  rw [← List.take_append_drop k l, List.pairwise_append] at order
  exact order.2.2

/-- Those who are not admitted are the rest of the ranking. -/
theorem filter_notMem_take {κ : Type} [DecidableEq κ] {key : α → κ} {l : List α}
    (keyed : (l.map key).Nodup) (k : Nat) :
    l.filter (fun a => key a ∉ (l.take k).map key) = l.drop k := by
  have parts := keyed
  rw [← List.take_append_drop k l, List.map_append, List.nodup_append] at parts
  have first : (l.take k).filter (fun a => key a ∉ (l.take k).map key) = [] :=
    List.filter_eq_nil_iff.mpr fun a ha => by
      have earlier : key a ∈ (l.take k).map key := List.mem_map_of_mem ha
      exact fun apart => of_decide_eq_true apart earlier
  have second : (l.drop k).filter (fun a => key a ∉ (l.take k).map key) = l.drop k :=
    List.filter_eq_self.mpr fun a ha => by
      have apart : key a ∉ (l.take k).map key := fun earlier =>
        parts.2.2 _ earlier _ (List.mem_map_of_mem ha) rfl
      exact decide_eq_true apart
  calc l.filter (fun a => key a ∉ (l.take k).map key)
      = (l.take k ++ l.drop k).filter (fun a => key a ∉ (l.take k).map key) := by
        rw [List.take_append_drop]
    _ = l.drop k := by rw [List.filter_append, first, second, List.nil_append]

/-! ### A queue that turns -/

/-- A queue whose first entry goes to the back each time shows its entries in turn. -/
theorem turns {q : Nat → List α} (turn : ∀ k, q (k + 1) = (q k).rotate 1) (k : Nat) :
    q k = (q 0).rotate k := by
  induction k with
  | zero => rw [List.rotate_zero]
  | succ k ih => rw [turn, ih, List.rotate_rotate]

/-- As many times in a row as there are entries, each is first once. -/
theorem heads_of_turns {q : Nat → List α} (turn : ∀ k, q (k + 1) = (q k).rotate 1) (k : Nat) :
    (List.range (q 0).length).map (fun i => (q (k + i)).head?) =
      ((q 0).rotate k).map some := by
  apply List.ext_getElem
  · simp
  · intro i hi hi'
    have inside : i < ((q 0).rotate k).length := by simpa using hi
    rw [List.getElem_map, List.getElem_range, turns turn (k + i), ← List.rotate_rotate,
      List.head?_rotate inside, List.getElem_map, List.getElem?_eq_getElem inside]

/-! ### Admission -/

/-- How many a cap admits when some are in already. -/
def room (cap : Option Nat) (candidates taken : Nat) : Nat :=
  match cap with
  | none => candidates
  | some c => min candidates (c - taken)

theorem room_le (cap : Option Nat) (candidates taken : Nat) :
    room cap candidates taken ≤ candidates := by
  cases cap with
  | none => exact le_rfl
  | some c => exact min_le_left _ _

/-- Admission never goes over the cap. -/
theorem taken_add_room_le (c candidates taken : Nat) :
    taken + room (some c) candidates taken ≤ max c taken := by
  simp only [room]
  omega

/-- Admission under a cap leaves no room under it. -/
theorem room_again (cap : Option Nat) (candidates taken : Nat) :
    room cap (candidates - room cap candidates taken)
      (taken + room cap candidates taken) = 0 := by
  cases cap <;> simp only [room] <;> omega

/-- Whether a cap is no larger than another; no cap is the largest. -/
def CapLe : Option Nat → Option Nat → Prop
  | _, none => True
  | none, some _ => False
  | some a, some b => a ≤ b

/-- Admission under a smaller cap first changes nothing about who is admitted. -/
theorem room_add_room {first second : Option Nat} (le : CapLe first second)
    (candidates taken : Nat) :
    room first candidates taken +
        room second (candidates - room first candidates taken)
          (taken + room first candidates taken) =
      room second candidates taken := by
  cases first with
  | none =>
      cases second with
      | none => simp [room]
      | some b => exact le.elim
  | some a =>
      cases second with
      | none =>
          simp only [room]
          omega
      | some b =>
          have h : a ≤ b := le
          simp only [room]
          omega

end Ranking
