import Mathlib.Algebra.Order.Floor.Semiring
import Mathlib.Algebra.Order.Field.Basic
import Mathlib.Data.List.Sort
import Mathlib.Tactic

/-!
# Linear interpolation

The polygon through the values of a sequence at the integers. Over an increasing sequence it is
increasing, since a piece lies between its two ends; a sorted list is read as such a sequence,
whose last value is repeated.
-/

namespace Interpolation

section Polygon

variable {α : Type} [Field α] [LinearOrder α] [IsStrictOrderedRing α] [FloorSemiring α]
  {v : ℕ → α} {s t : α}

/-- The value at `t`, on the segment from one integer to the next. -/
def polygon (v : ℕ → α) (t : α) : α :=
  v ⌊t⌋₊ + (v (⌊t⌋₊ + 1) - v ⌊t⌋₊) * (t - ⌊t⌋₊)

@[simp] theorem polygon_natCast (v : ℕ → α) (n : ℕ) : polygon v n = v n := by
  simp [polygon]

theorem left_le_polygon (increasing : Monotone v) (nonneg : 0 ≤ t) : v ⌊t⌋₊ ≤ polygon v t := by
  have rise : 0 ≤ v (⌊t⌋₊ + 1) - v ⌊t⌋₊ := sub_nonneg.mpr (increasing (Nat.le_succ _))
  have inside : 0 ≤ t - ⌊t⌋₊ := sub_nonneg.mpr (Nat.floor_le nonneg)
  exact le_add_of_nonneg_right (mul_nonneg rise inside)

theorem polygon_le_right (increasing : Monotone v) (t : α) :
    polygon v t ≤ v (⌊t⌋₊ + 1) := by
  have rise : 0 ≤ v (⌊t⌋₊ + 1) - v ⌊t⌋₊ := sub_nonneg.mpr (increasing (Nat.le_succ _))
  have inside : t - ⌊t⌋₊ ≤ 1 := sub_le_iff_le_add'.mpr (Nat.lt_floor_add_one t).le
  calc polygon v t ≤ v ⌊t⌋₊ + (v (⌊t⌋₊ + 1) - v ⌊t⌋₊) * 1 :=
        (add_le_add_iff_left _).mpr (mul_le_mul_of_nonneg_left inside rise)
    _ = v (⌊t⌋₊ + 1) := by ring

/-- On one segment the slopes decide, between two the values at the integers. -/
theorem polygon_mono (increasing : Monotone v) (nonneg : 0 ≤ s) (le : s ≤ t) :
    polygon v s ≤ polygon v t := by
  obtain same | later := (Nat.floor_mono le).eq_or_lt
  · have rise : 0 ≤ v (⌊t⌋₊ + 1) - v ⌊t⌋₊ := sub_nonneg.mpr (increasing (Nat.le_succ _))
    rw [polygon, polygon, same]
    gcongr
  · calc polygon v s ≤ v (⌊s⌋₊ + 1) := polygon_le_right increasing s
      _ ≤ v ⌊t⌋₊ := increasing later
      _ ≤ polygon v t := left_le_polygon increasing (nonneg.trans le)

end Polygon

/-! ### Lists -/

section Lists

variable {α : Type} {xs : List α} {nonempty : xs ≠ []}

theorem last_lt (nonempty : xs ≠ []) (i : ℕ) : min i (xs.length - 1) < xs.length := by
  have some_value := List.length_pos_iff.mpr nonempty
  omega

/-- The values of a list that is not empty, the last of them for ever. -/
def values (xs : List α) (nonempty : xs ≠ []) (i : ℕ) : α :=
  xs.get ⟨min i (xs.length - 1), last_lt nonempty i⟩

theorem values_eq {i : ℕ} (inside : i < xs.length) : xs[i]? = some (values xs nonempty i) := by
  have index : min i (xs.length - 1) = i := by omega
  simp only [values, index]
  exact List.getElem?_eq_getElem inside

theorem values_mono [LinearOrder α] (sorted : xs.Pairwise (· ≤ ·)) :
    Monotone (values xs nonempty) := by
  intro i j le
  have index : min i (xs.length - 1) ≤ min j (xs.length - 1) := by omega
  exact sorted.rel_get_of_le index

end Lists

end Interpolation
