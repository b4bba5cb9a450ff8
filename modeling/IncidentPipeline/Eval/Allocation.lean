import IncidentPipeline.Foundation.Apportionment
import IncidentPipeline.Foundation.Double
import Mathlib.Data.String.Basic

/-!
# The dev counts of the strata

`largest_remainder_allocation` of `eval/scripts/make_split`. Divisions are exact or rounded to
doubles; on quotients of integers of at most 53 bits rounding changes neither the whole parts
nor which strata have a fraction, so that only the order among the fractions is at stake.
-/

namespace IncidentPipeline.MakeSplit

open Apportionment

/-- How a quotient or a difference of numbers is rounded. -/
inductive Arithmetic where
  | exact
  | doubles
deriving DecidableEq, Repr

def Arithmetic.round : Arithmetic → ℚ → ℚ
  | .exact, q => q
  | .doubles, q => Double.nearest q

/-- `items[:stop]`. -/
def sliceTo {α : Type} (items : List α) (stop : ℤ) : List α :=
  if 0 ≤ stop then items.take stop.toNat else items.take (items.length - stop.natAbs)

section Allocation

variable {κ : Type}

/-- `exact[k]` for a stratum of this size. -/
def exactShare (a : Arithmetic) (totalDev totalDocs size : ℕ) : ℚ :=
  a.round (((size * totalDev : ℕ) : ℚ) / totalDocs)

/-- `base[k]`. -/
def base (a : Arithmetic) (totalDev totalDocs size : ℕ) : ℕ :=
  ⌊exactShare a totalDev totalDocs size⌋.toNat

/-- `exact[k] - base[k]`. -/
def remainder (a : Arithmetic) (totalDev totalDocs size : ℕ) : ℚ :=
  a.round (exactShare a totalDev totalDocs size - base a totalDev totalDocs size)

/-- The strata by falling remainder, the greater key first among equals. -/
def order [LinearOrder κ] (a : Arithmetic) (totalDev totalDocs : ℕ) (sizes : List (κ × ℕ)) :
    List (κ × ℕ) :=
  sizes.mergeSort fun s t => toLex (remainder a totalDev totalDocs t.2, t.1) ≤
    toLex (remainder a totalDev totalDocs s.2, s.1)

/-- Sizes and counts are dictionaries: association lists with distinct keys. -/
def largestRemainderAllocation [LinearOrder κ] (a : Arithmetic) (sizes : List (κ × ℕ))
    (totalDev : ℕ) : Except String (List (κ × ℕ)) :=
  let totalDocs := (sizes.map Prod.snd).sum
  if sizes ≠ [] ∧ totalDocs = 0 then .error "division by zero"
  else
    let left : ℤ := totalDev - (sizes.map fun s => base a totalDev totalDocs s.2).sum
    let up := (sliceTo (order a totalDev totalDocs sizes) left).map Prod.fst
    .ok (sizes.map fun s => (s.1, base a totalDev totalDocs s.2 + if s.1 ∈ up then 1 else 0))

/-! ### Shares -/

/-- The exact share of a stratum. -/
def share (sizes : List (κ × ℕ)) (totalDev : ℕ) (s : κ × ℕ) : ℚ :=
  ((s.2 * totalDev : ℕ) : ℚ) / (sizes.map Prod.snd).sum

/-- The numerators of the shares are doubles. -/
def Arithmetic.Fits (a : Arithmetic) (sizes : List (κ × ℕ)) (totalDev : ℕ) : Prop :=
  a = .doubles → ∀ s ∈ sizes, s.2 * totalDev < 2 ^ 53

variable {a : Arithmetic} {sizes : List (κ × ℕ)} {totalDev : ℕ}

theorem share_nonneg (s : κ × ℕ) : 0 ≤ share sizes totalDev s := by
  rw [share]
  positivity

theorem Arithmetic.round_pos_iff {q : ℚ} : 0 < a.round q ↔ 0 < q := by
  cases a with
  | exact => exact Iff.rfl
  | doubles => exact Double.nearest_pos_iff

theorem base_eq (fits : a.Fits sizes totalDev) {s : κ × ℕ} (member : s ∈ sizes) :
    base a totalDev (sizes.map Prod.snd).sum s.2 = ⌊share sizes totalDev s⌋₊ := by
  cases a with
  | exact => exact Int.floor_toNat _
  | doubles =>
      have same := Double.floor_nearest_div (b := (sizes.map Prod.snd).sum) (fits rfl s member)
      rw [base, exactShare, Arithmetic.round, same, Int.floor_toNat]
      rfl

theorem exactShare_sub_base (fits : a.Fits sizes totalDev) {s : κ × ℕ} (member : s ∈ sizes) :
    exactShare a totalDev (sizes.map Prod.snd).sum s.2 -
        base a totalDev (sizes.map Prod.snd).sum s.2 =
      Int.fract (exactShare a totalDev (sizes.map Prod.snd).sum s.2) := by
  have exact_nonneg : 0 ≤ share sizes totalDev s := share_nonneg s
  have nonneg : 0 ≤ ⌊exactShare a totalDev (sizes.map Prod.snd).sum s.2⌋ := by
    cases a with
    | exact => exact Int.floor_nonneg.mpr exact_nonneg
    | doubles =>
        rw [exactShare, Arithmetic.round, Double.floor_nearest_div (fits rfl s member)]
        exact Int.floor_nonneg.mpr exact_nonneg
  have cast : ((base a totalDev (sizes.map Prod.snd).sum s.2 : ℕ) : ℚ) =
      ⌊exactShare a totalDev (sizes.map Prod.snd).sum s.2⌋ := by
    rw [base]
    exact_mod_cast Int.toNat_of_nonneg nonneg
  rw [cast, Int.self_sub_floor]

theorem remainder_pos_iff (fits : a.Fits sizes totalDev) {s : κ × ℕ} (member : s ∈ sizes) :
    0 < remainder a totalDev (sizes.map Prod.snd).sum s.2 ↔
      0 < Int.fract (share sizes totalDev s) := by
  rw [remainder, exactShare_sub_base fits member, Arithmetic.round_pos_iff]
  cases a with
  | exact => exact Iff.rfl
  | doubles => exact Double.fract_nearest_div_pos (fits rfl s member)

theorem remainder_exact (fits : Arithmetic.exact.Fits sizes totalDev) {s : κ × ℕ}
    (member : s ∈ sizes) : remainder .exact totalDev (sizes.map Prod.snd).sum s.2 =
      Int.fract (share sizes totalDev s) := by
  rw [remainder, exactShare_sub_base fits member]
  rfl

/-- The shares add up to the seats. -/
theorem sum_share (some_doc : (sizes.map Prod.snd).sum ≠ 0) :
    (sizes.map (share sizes totalDev)).sum = totalDev := by
  have scaled : ∀ l : List (κ × ℕ), (l.map (share sizes totalDev)).sum =
      ((l.map Prod.snd).sum * totalDev : ℕ) / ((sizes.map Prod.snd).sum : ℕ) := by
    intro l
    induction l with
    | nil => simp
    | cons s rest ih =>
        rw [List.map_cons, List.sum_cons, ih, List.map_cons, List.sum_cons, share, add_mul]
        push_cast
        ring
  rw [scaled, Nat.cast_mul]
  exact mul_div_cancel_left₀ _ (Nat.cast_ne_zero.mpr some_doc)

/-- A share of at most all seats is at most the stratum. -/
theorem share_le (within : totalDev ≤ (sizes.map Prod.snd).sum) (s : κ × ℕ) :
    share sizes totalDev s ≤ s.2 := by
  obtain zero | positive := Nat.eq_zero_or_pos (sizes.map Prod.snd).sum
  · rw [share, zero, Nat.cast_zero, div_zero]
    positivity
  · rw [share, div_le_iff₀ (by exact_mod_cast positive)]
    exact_mod_cast Nat.mul_le_mul_left s.2 within

/-! ### Allocation -/

theorem mem_keys_iff {chosen : List (κ × ℕ)} (distinct : (sizes.map Prod.fst).Nodup)
    (subset : ∀ s ∈ chosen, s ∈ sizes) {s : κ × ℕ} (member : s ∈ sizes) :
    s.1 ∈ chosen.map Prod.fst ↔ s ∈ chosen := by
  constructor
  · intro found
    obtain ⟨t, inside, same⟩ := List.mem_map.mp found
    rwa [← List.inj_on_of_nodup_map distinct (subset t inside) member same]
  · exact List.mem_map_of_mem

variable [LinearOrder κ]

theorem ranks_order (a : Arithmetic) (totalDev totalDocs : ℕ) : Ranking.Ranks
    fun s t : κ × ℕ => decide (toLex (remainder a totalDev totalDocs t.2, t.1) ≤
      toLex (remainder a totalDev totalDocs s.2, s.1)) where
  total s t := by
    rw [Bool.or_eq_true, decide_eq_true_eq, decide_eq_true_eq]
    exact le_total _ _
  trans s t u first second :=
    decide_eq_true ((of_decide_eq_true second).trans (of_decide_eq_true first))

/-- The order of the strata hands the seats left over to those with a fraction first. -/
theorem ordered (fits : a.Fits sizes totalDev) (distinct : (sizes.map Prod.fst).Nodup)
    (some_doc : (sizes.map Prod.snd).sum ≠ 0) :
    Ordered (share sizes totalDev) (fun s => remainder a totalDev (sizes.map Prod.snd).sum s.2)
      sizes (order a totalDev (sizes.map Prod.snd).sum sizes) totalDev where
  distinct := distinct.of_map _
  nonneg s _ := share_nonneg s
  sum := sum_share some_doc
  perm := List.mergeSort_perm _ _
  falling := by
    apply ((ranks_order a totalDev (sizes.map Prod.snd).sum).sorted sizes).imp
    intro s t le
    obtain lower | ⟨same, _⟩ := Prod.Lex.le_iff.mp (of_decide_eq_true le)
    · exact lower.le
    · exact same.le
  weighs s member := remainder_pos_iff fits member

/-- Every stratum gets the seats that largest remainders give it. -/
theorem allocation_eq (fits : a.Fits sizes totalDev) (distinct : (sizes.map Prod.fst).Nodup)
    (some_doc : (sizes.map Prod.snd).sum ≠ 0) :
    largestRemainderAllocation a sizes totalDev = .ok (sizes.map fun s => (s.1,
      seats (share sizes totalDev) (raised (share sizes totalDev) sizes
        (order a totalDev (sizes.map Prod.snd).sum sizes) totalDev) s)) := by
  have bound : whole (share sizes totalDev) sizes ≤ totalDev :=
    whole_le (fun s _ => share_nonneg s) (sum_share some_doc)
  have bases : (sizes.map fun s => base a totalDev (sizes.map Prod.snd).sum s.2).sum =
      whole (share sizes totalDev) sizes :=
    congrArg List.sum (List.map_congr_left fun s member => base_eq fits member)
  have slice : sliceTo (order a totalDev (sizes.map Prod.snd).sum sizes)
      (totalDev - (sizes.map fun s => base a totalDev (sizes.map Prod.snd).sum s.2).sum : ℤ) =
        raised (share sizes totalDev) sizes (order a totalDev (sizes.map Prod.snd).sum sizes)
          totalDev := by
    rw [bases, sliceTo, if_pos (by omega), raised]
    congr 1
    omega
  rw [largestRemainderAllocation]
  simp only [slice]
  rw [if_neg fun none_ => some_doc none_.2]
  refine congrArg Except.ok (List.map_congr_left fun s member => ?_)
  have inside : ∀ t ∈ raised (share sizes totalDev) sizes
      (order a totalDev (sizes.map Prod.snd).sum sizes) totalDev, t ∈ sizes :=
    fun t found => List.mem_mergeSort.mp (List.mem_of_mem_take found)
  have same := mem_keys_iff distinct inside member
  rw [base_eq fits member, seats]
  by_cases up : s ∈ raised (share sizes totalDev) sizes
      (order a totalDev (sizes.map Prod.snd).sum sizes) totalDev
  · rw [if_pos up, if_pos (same.mpr up)]
  · rw [if_neg up, if_neg (same.not.mpr up)]

/-- The counts of the strata, in order, add up to the seats, and each is the floor or the
ceiling of the share and at most the stratum. -/
structure Allocated (sizes : List (κ × ℕ)) (totalDev : ℕ) (counts : List (κ × ℕ)) : Prop where
  keys : counts.map Prod.fst = sizes.map Prod.fst
  sum : (counts.map Prod.snd).sum = totalDev
  near : ∀ s ∈ sizes, ∀ c ∈ counts, c.1 = s.1 →
    c.2 = ⌊share sizes totalDev s⌋₊ ∨ c.2 = ⌈share sizes totalDev s⌉₊
  le : ∀ s ∈ sizes, ∀ c ∈ counts, c.1 = s.1 → c.2 ≤ s.2

/-- No stratum is rounded up while one with a larger fraction is rounded down. -/
def Fair (sizes : List (κ × ℕ)) (totalDev : ℕ) (counts : List (κ × ℕ)) : Prop :=
  ∀ s ∈ sizes, ∀ t ∈ sizes, ∀ c ∈ counts, ∀ d ∈ counts, c.1 = s.1 → d.1 = t.1 →
    share sizes totalDev s < c.2 → d.2 < share sizes totalDev t →
      Int.fract (share sizes totalDev t) ≤ Int.fract (share sizes totalDev s)

omit [LinearOrder κ] in
/-- The count of a stratum is the one that was computed for it. -/
theorem count_of_key {f : κ × ℕ → ℕ} (distinct : (sizes.map Prod.fst).Nodup) {s c : κ × ℕ}
    (member : s ∈ sizes) (counted : c ∈ sizes.map fun s => (s.1, f s)) (same : c.1 = s.1) :
    c.2 = f s := by
  obtain ⟨t, inside, rfl⟩ := List.mem_map.mp counted
  rw [List.inj_on_of_nodup_map distinct inside member same]

theorem allocation_allocated (fits : a.Fits sizes totalDev)
    (distinct : (sizes.map Prod.fst).Nodup) (some_doc : (sizes.map Prod.snd).sum ≠ 0)
    (within : totalDev ≤ (sizes.map Prod.snd).sum) :
    ∃ counts, largestRemainderAllocation a sizes totalDev = .ok counts ∧
      Allocated sizes totalDev counts := by
  have seated := ordered fits distinct some_doc
  refine ⟨_, allocation_eq fits distinct some_doc, ?_, ?_, ?_, ?_⟩
  · rw [List.map_map]
    rfl
  · rw [List.map_map]
    exact seated.sum_seats
  · intro s member c counted same
    rw [count_of_key distinct member counted same]
    exact seated.seats_near s
  · intro s member c counted same
    rw [count_of_key distinct member counted same]
    exact seated.seats_le (share_le within s)

/-- The counts do not depend on the order of the strata. -/
theorem allocation_perm {sizes' counts : List (κ × ℕ)} (distinct : (sizes.map Prod.fst).Nodup)
    (perm : sizes'.Perm sizes) (found : largestRemainderAllocation a sizes totalDev = .ok counts) :
    ∃ counts', largestRemainderAllocation a sizes' totalDev = .ok counts' ∧
      counts'.Perm counts := by
  have total : (sizes'.map Prod.snd).sum = (sizes.map Prod.snd).sum := (perm.map _).sum_eq
  have bases : (sizes'.map fun s => base a totalDev (sizes.map Prod.snd).sum s.2).sum =
      (sizes.map fun s => base a totalDev (sizes.map Prod.snd).sum s.2).sum := (perm.map _).sum_eq
  have untied : Ranking.Untied (fun s t : κ × ℕ =>
      decide (toLex (remainder a totalDev (sizes.map Prod.snd).sum t.2, t.1) ≤
        toLex (remainder a totalDev (sizes.map Prod.snd).sum s.2, s.1))) sizes := by
    intro s first t second le ge
    have same := le_antisymm (of_decide_eq_true le) (of_decide_eq_true ge)
    have keys : t.1 = s.1 := congrArg (fun key => (ofLex key).2) same
    exact List.inj_on_of_nodup_map distinct first second keys.symm
  have sorted : order a totalDev (sizes.map Prod.snd).sum sizes' =
      order a totalDev (sizes.map Prod.snd).sum sizes :=
    (ranks_order a totalDev (sizes.map Prod.snd).sum).mergeSort_perm untied perm
  have empty : sizes' = [] ↔ sizes = [] := by
    rw [← List.length_eq_zero_iff, ← List.length_eq_zero_iff, perm.length_eq]
  rw [largestRemainderAllocation] at found ⊢
  simp only [total, bases, sorted, ne_eq, empty]
  simp only [ne_eq] at found
  split at found
  · cases found
  · next some_doc =>
      rw [if_neg some_doc, ← Except.ok.inj found]
      exact ⟨_, rfl, perm.map _⟩

/-- In exact arithmetic largest remainders hand out all seats, give every stratum the floor or
the ceiling of its share, and round up those with the larger fractions. -/
theorem largestRemainderAllocation_spec (nonempty : sizes ≠ [])
    (distinct : (sizes.map Prod.fst).Nodup) (positive : ∀ s ∈ sizes, 0 < s.2)
    (within : totalDev ≤ (sizes.map Prod.snd).sum) :
    ∃ counts, largestRemainderAllocation .exact sizes totalDev = .ok counts ∧
      Allocated sizes totalDev counts ∧ Fair sizes totalDev counts := by
  have fits : Arithmetic.exact.Fits sizes totalDev := fun doubles => nomatch doubles
  have some_doc : (sizes.map Prod.snd).sum ≠ 0 := by
    obtain ⟨s, member⟩ := List.exists_mem_of_ne_nil sizes nonempty
    have le := List.single_le_sum (fun _ _ => Nat.zero_le _) s.2 (List.mem_map_of_mem member)
    have some_size := positive s member
    omega
  obtain ⟨counts, found, allocated⟩ := allocation_allocated fits distinct some_doc within
  have seated := ordered fits distinct some_doc
  obtain rfl := Except.ok.inj ((allocation_eq fits distinct some_doc).symm.trans found)
  refine ⟨_, found, allocated, ?_⟩
  intro s first t second c counted d counted' same same' up down
  rw [count_of_key distinct first counted same] at up
  rw [count_of_key distinct second counted' same'] at down
  -- Only those that are raised are above their shares, and none of them is below.
  have raised_s : s ∈ raised (share sizes totalDev) sizes
      (order .exact totalDev (sizes.map Prod.snd).sum sizes) totalDev := by
    by_contra out
    rw [seats, if_neg out, add_zero] at up
    exact absurd (Nat.floor_le (share_nonneg s)) (not_le.mpr up)
  have out_t : t ∉ raised (share sizes totalDev) sizes
      (order .exact totalDev (sizes.map Prod.snd).sum sizes) totalDev := by
    intro inside
    rw [seated.seats_eq_ceil inside] at down
    exact absurd (Nat.le_ceil _) (not_le.mpr down)
  have weights := seated.weight_le raised_s second out_t
  rwa [remainder_exact fits first, remainder_exact fits second] at weights

/-- Three strata of which two have fractions. -/
theorem largestRemainderAllocation_three : ∃ counts,
    largestRemainderAllocation .exact [("a", 5), ("b", 5), ("c", 10)] 6 = .ok counts ∧
      Allocated [("a", 5), ("b", 5), ("c", 10)] 6 counts ∧
      Fair [("a", 5), ("b", 5), ("c", 10)] 6 counts :=
  largestRemainderAllocation_spec (by decide) (by decide) (by decide) (by decide)

end Allocation

end IncidentPipeline.MakeSplit
