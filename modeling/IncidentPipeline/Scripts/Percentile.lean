import IncidentPipeline.Foundation.Interpolation
import IncidentPipeline.Scripts.Latency

/-!
# Percentiles

`_percentile` stands in `scripts/load_test` and in `scripts/latency_report`. Both read the polygon
through the sorted values, in exact arithmetic; only the first looks at an empty list.
-/

namespace IncidentPipeline.LoadTest

/-- `_percentile`: the NaN of an empty list is the number that is not there. An index beyond the
list raises. -/
def percentile (values : List ℚ) (p : ℚ) : Option (Option ℚ) :=
  let xs := values.mergeSort (· ≤ ·)
  if xs = [] then some none
  else
    let k : ℚ := (xs.length - 1) * p
    let f := ⌊k⌋.toNat
    let c := min (f + 1) (xs.length - 1)
    if f = c then xs[f]?.map some
    else do
      let low ← xs[f]?
      let high ← xs[c]?
      return some (low + (high - low) * (k - f))

end IncidentPipeline.LoadTest

namespace IncidentPipeline.LatencyReport

open Interpolation Ranking
open scoped List

variable {values values' : List ℚ} {p q : ℚ}

/-! ### The sorted values -/

theorem sorted_ne_nil (nonempty : values ≠ []) : values.mergeSort (· ≤ ·) ≠ [] := by
  intro empty
  have perm := values.mergeSort_perm (· ≤ ·)
  rw [empty] at perm
  exact nonempty perm.symm.eq_nil

theorem sorted_pairwise (values : List ℚ) : (values.mergeSort (· ≤ ·)).Pairwise (· ≤ ·) :=
  (ranks_le.sorted values).imp of_decide_eq_true

/-- The value at a place in order. -/
def ranked (values : List ℚ) (nonempty : values ≠ []) : ℕ → ℚ :=
  Interpolation.values (values.mergeSort (· ≤ ·)) (sorted_ne_nil nonempty)

theorem ranked_mono (nonempty : values ≠ []) : Monotone (ranked values nonempty) :=
  values_mono (sorted_pairwise values)

theorem ranked_mem (nonempty : values ≠ []) (i : ℕ) : ranked values nonempty i ∈ values :=
  List.mem_mergeSort.mp (List.getElem_mem _)

/-- The values lie between the first and the last in order. -/
theorem ranked_bounds (nonempty : values ≠ []) {x : ℚ} (member : x ∈ values) :
    ranked values nonempty 0 ≤ x ∧ x ≤ ranked values nonempty (values.length - 1) := by
  have sorted : x ∈ values.mergeSort (· ≤ ·) := List.mem_mergeSort.mpr member
  obtain ⟨i, found⟩ := List.mem_iff_getElem?.mp sorted
  obtain ⟨inside, _⟩ := List.getElem?_eq_some_iff.mp found
  have same : some x = some (ranked values nonempty i) :=
    found.symm.trans (@values_eq _ _ (sorted_ne_nil nonempty) i inside)
  rw [Option.some.inj same]
  rw [List.length_mergeSort] at inside
  exact ⟨ranked_mono nonempty (Nat.zero_le i), ranked_mono nonempty (by omega)⟩

theorem min?_eq (nonempty : values ≠ []) : values.min? = some (ranked values nonempty 0) := by
  rw [List.min?_eq_some_iff]
  exact ⟨ranked_mem nonempty 0, fun x member => (ranked_bounds nonempty member).1⟩

theorem max?_eq (nonempty : values ≠ []) :
    values.max? = some (ranked values nonempty (values.length - 1)) := by
  rw [List.max?_eq_some_iff]
  exact ⟨ranked_mem nonempty _, fun x member => (ranked_bounds nonempty member).2⟩

/-! ### The polygon -/

/-- The place between the values. -/
def place (values : List ℚ) (p : ℚ) : ℚ := ((values.length : ℚ) - 1) * p

theorem place_bounds (nonempty : values ≠ []) (nonneg : 0 ≤ p) (unit : p ≤ 1) :
    0 ≤ place values p ∧ place values p ≤ (values.length - 1 : ℕ) := by
  have some_value : 1 ≤ values.length := List.length_pos_iff.mpr nonempty
  have cast : ((values.length - 1 : ℕ) : ℚ) = values.length - 1 := by
    rw [Nat.cast_sub some_value, Nat.cast_one]
  have last : (0 : ℚ) ≤ values.length - 1 := by
    rw [← cast]
    exact Nat.cast_nonneg _
  rw [place, cast]
  exact ⟨mul_nonneg last nonneg, mul_le_of_le_one_right last unit⟩

/-- Every index is inside the list, and the value is on the polygon. -/
theorem percentile_eq (nonempty : values ≠ []) (nonneg : 0 ≤ p) (unit : p ≤ 1) :
    percentile values p = some (polygon (ranked values nonempty) (place values p)) ∧
      LoadTest.percentile values p =
        some (some (polygon (ranked values nonempty) (place values p))) := by
  obtain ⟨low, high⟩ := place_bounds nonempty nonneg unit
  have some_value : 1 ≤ values.length := List.length_pos_iff.mpr nonempty
  have length : (values.mergeSort (· ≤ ·)).length = values.length := List.length_mergeSort _
  have floor : ⌊place values p⌋.toNat = ⌊place values p⌋₊ := Int.floor_toNat _
  have last : ⌊place values p⌋₊ ≤ values.length - 1 := by
    have below := Nat.floor_mono high
    rwa [Nat.floor_natCast] at below
  have read : ∀ i < values.length,
      (values.mergeSort (· ≤ ·))[i]? = some (ranked values nonempty i) :=
    fun i inside => values_eq (by rwa [length])
  rw [percentile, LoadTest.percentile, if_neg (sorted_ne_nil nonempty)]
  simp only [length]
  rw [← place, floor]
  by_cases whole : ⌊place values p⌋₊ = min (⌊place values p⌋₊ + 1) (values.length - 1)
  · -- the place is that of the last value
    have there : place values p = (⌊place values p⌋₊ : ℕ) := by
      have same : values.length - 1 = ⌊place values p⌋₊ := by omega
      rw [same] at high
      exact le_antisymm high (Nat.floor_le low)
    rw [if_pos whole, if_pos whole, read _ (by omega)]
    nth_rewrite 2 [there]
    nth_rewrite 4 [there]
    rw [polygon_natCast]
    exact ⟨rfl, rfl⟩
  · have next : min (⌊place values p⌋₊ + 1) (values.length - 1) = ⌊place values p⌋₊ + 1 := by omega
    rw [if_neg whole, if_neg whole, next, read _ (by omega), read _ (by omega)]
    exact ⟨rfl, rfl⟩

/-- Between the least and the greatest value, percentiles increase with the level. They do not
depend on the order of the values, and both scripts find the same. -/
theorem percentile_spec (nonempty : values ≠ []) (nonneg : 0 ≤ p) (le : p ≤ q) (unit : q ≤ 1) :
    ∃ least lower upper greatest, values.min? = some least ∧ values.max? = some greatest ∧
      percentile values p = some lower ∧ percentile values q = some upper ∧
      least ≤ lower ∧ lower ≤ upper ∧ upper ≤ greatest ∧
      percentile values 0 = some least ∧ percentile values 1 = some greatest ∧
      (∀ values', values' ~ values → percentile values' p = percentile values p) ∧
      LoadTest.percentile values p = some (some lower) := by
  have increasing := ranked_mono nonempty
  obtain ⟨first, _⟩ := place_bounds nonempty nonneg (le.trans unit)
  obtain ⟨second, last⟩ := place_bounds nonempty (nonneg.trans le) unit
  have between : place values p ≤ place values q := by
    have ends := place_bounds nonempty zero_le_one le_rfl
    rw [place, mul_one] at ends
    exact mul_le_mul_of_nonneg_left le ends.1
  have start := (percentile_eq nonempty le_rfl zero_le_one).1
  have finish := (percentile_eq nonempty zero_le_one le_rfl).1
  have zero : place values 0 = (0 : ℕ) := by simp [place]
  have one : place values 1 = (values.length - 1 : ℕ) := by
    rw [place, mul_one, Nat.cast_sub (List.length_pos_iff.mpr nonempty), Nat.cast_one]
  rw [zero, polygon_natCast] at start
  rw [one, polygon_natCast] at finish
  refine ⟨_, _, _, _, min?_eq nonempty, max?_eq nonempty,
    (percentile_eq nonempty nonneg (le.trans unit)).1,
    (percentile_eq nonempty (nonneg.trans le) unit).1, ?_, polygon_mono increasing first between,
    ?_, start, finish, ?_, (percentile_eq nonempty nonneg (le.trans unit)).2⟩
  · calc ranked values nonempty 0 = polygon (ranked values nonempty) (0 : ℕ) :=
          (polygon_natCast _ 0).symm
      _ ≤ polygon (ranked values nonempty) (place values p) :=
          polygon_mono increasing (Nat.cast_nonneg 0) (by simpa using first)
  · calc polygon (ranked values nonempty) (place values q) ≤
          polygon (ranked values nonempty) (values.length - 1 : ℕ) :=
          polygon_mono increasing second last
      _ = ranked values nonempty (values.length - 1) := polygon_natCast _ _
  · intro values' perm
    have sorted : values'.mergeSort (· ≤ ·) = values.mergeSort (· ≤ ·) :=
      ranks_le.mergeSort_perm (untied_le values) perm
    rw [percentile, percentile, sorted]

/-- The median and the 95th percentile of four values, in either script. -/
theorem percentile_spec_four : ∃ least lower upper greatest,
    ([3, 1, 4, 2] : List ℚ).min? = some least ∧ ([3, 1, 4, 2] : List ℚ).max? = some greatest ∧
      percentile [3, 1, 4, 2] (1 / 2) = some lower ∧
      percentile [3, 1, 4, 2] (95 / 100) = some upper ∧
      least ≤ lower ∧ lower ≤ upper ∧ upper ≤ greatest := by
  obtain ⟨least, lower, upper, greatest, low, high, median, tail, h, h', h'', _⟩ :=
    percentile_spec (List.cons_ne_nil (3 : ℚ) [1, 4, 2]) (p := 1 / 2) (q := 95 / 100)
      (by norm_num) (by norm_num) (by norm_num)
  exact ⟨least, lower, upper, greatest, low, high, median, tail, h, h', h''⟩

end IncidentPipeline.LatencyReport
