import Mathlib.Tactic

/-!
# Lists cut into fibers

A list of tests cuts a list of values into the sublists that pass them. When every value
passes exactly one test, sums over the list are sums over its fibers.
-/

namespace Fibers

variable {α ι M : Type} {test : ι → α → Bool} {tests : List ι} {xs ys : List α}

/-- The values that pass one of the tests. -/
def fiber (test : ι → α → Bool) (i : ι) (xs : List α) : List α := xs.filter (test i)

/-- Every value passes exactly one test. -/
def Partition (test : ι → α → Bool) (tests : List ι) (xs : List α) : Prop :=
  ∀ x ∈ xs, tests.countP (test · x) = 1

theorem fiber_perm (perm : xs.Perm ys) (i : ι) : (fiber test i xs).Perm (fiber test i ys) :=
  perm.filter _

theorem partition_of_index [DecidableEq ι] (index : α → ι) (nodup : tests.Nodup)
    (covered : ∀ x ∈ xs, index x ∈ tests)
    (passes : ∀ x ∈ xs, ∀ i ∈ tests, (test i x = true ↔ i = index x)) :
    Partition test tests xs := by
  intro x hx
  have counts : tests.countP (test · x) = tests.count (index x) := by
    rw [List.count_eq_countP]
    refine List.countP_congr fun i hi => ?_
    simpa using passes x hx i hi
  rw [counts]
  exact List.count_eq_one_of_mem nodup (covered x hx)

section Sums

variable [AddCommMonoid M]

/-- A value is added once for every test it passes. -/
theorem sum_ite_eq_nsmul (p : ι → Bool) (tests : List ι) (m : M) :
    (tests.map fun i => if p i then m else 0).sum = tests.countP p • m := by
  induction tests with
  | nil => simp
  | cons i rest ih =>
      rw [List.map_cons, List.sum_cons, ih, List.countP_cons, add_comm]
      by_cases h : p i = true
      · simp [h, succ_nsmul]
      · simp [h]

/-- The sum over a list is the sum over its fibers. -/
theorem sum_fibers (partition : Partition test tests xs) (g : α → M) :
    (tests.map fun i => ((fiber test i xs).map g).sum).sum = (xs.map g).sum := by
  induction xs with
  | nil => simp [fiber]
  | cons x rest ih =>
      have first := partition x List.mem_cons_self
      have later := ih fun y hy => partition y (List.mem_cons_of_mem _ hy)
      have split : ∀ i, ((fiber test i (x :: rest)).map g).sum =
          (if test i x then g x else 0) + ((fiber test i rest).map g).sum := by
        intro i
        rw [fiber, fiber, List.filter_cons]
        split
        · rw [List.map_cons, List.sum_cons]
        · rw [zero_add]
      simp only [split, List.sum_map_add]
      rw [sum_ite_eq_nsmul (fun i => test i x), first, one_nsmul, later, List.map_cons,
        List.sum_cons]

theorem length_fibers (partition : Partition test tests xs) :
    (tests.map fun i => (fiber test i xs).length).sum = xs.length := by
  have ones := sum_fibers partition fun _ => 1
  simpa using ones

/-- The fibers one after another are the list again, up to the order. -/
theorem flatMap_fibers_perm (partition : Partition test tests xs) :
    (tests.flatMap fun i => fiber test i xs).Perm xs := by
  have singletons : ∀ ys : List α, (ys.map fun y => ({y} : Multiset α)).sum = ys := by
    intro ys
    induction ys with
    | nil => rfl
    | cons y rest ih => simp [ih]
  have parts : ∀ is : List ι, (↑(is.flatMap fun i => fiber test i xs) : Multiset α) =
      (is.map fun i => (↑(fiber test i xs) : Multiset α)).sum := by
    intro is
    induction is with
    | nil => rfl
    | cons i rest ih => rw [List.flatMap_cons, ← Multiset.coe_add, ih, List.map_cons, List.sum_cons]
  have sums := sum_fibers partition fun x => ({x} : Multiset α)
  simp only [singletons] at sums
  exact Multiset.coe_eq_coe.mp ((parts tests).trans sums)

end Sums

/-! ### Absolute values -/

section Ordered

variable [AddCommGroup M] [LinearOrder M] [IsOrderedAddMonoid M]

theorem abs_sum_le (f : ι → M) (tests : List ι) :
    |(tests.map f).sum| ≤ (tests.map fun i => |f i|).sum := by
  induction tests with
  | nil => simp
  | cons i rest ih =>
      rw [List.map_cons, List.sum_cons, List.map_cons, List.sum_cons]
      calc |f i + (rest.map f).sum| ≤ |f i| + |(rest.map f).sum| := abs_add_le _ _
        _ ≤ |f i| + (rest.map fun i => |f i|).sum := by gcongr

/-- What cancels between fibers is counted by the right side only. -/
theorem abs_sum_le_fibers (partition : Partition test tests xs) (g : α → M) :
    |(xs.map g).sum| ≤ (tests.map fun i => |((fiber test i xs).map g).sum|).sum := by
  rw [← sum_fibers partition g]
  exact abs_sum_le _ _

theorem sum_fibers_abs_le (partition : Partition test tests xs) (g : α → M) :
    (tests.map fun i => |((fiber test i xs).map g).sum|).sum ≤ (xs.map fun x => |g x|).sum := by
  rw [← sum_fibers partition fun x => |g x|]
  refine List.sum_le_sum fun i _ => ?_
  exact abs_sum_le g _

end Ordered

end Fibers
