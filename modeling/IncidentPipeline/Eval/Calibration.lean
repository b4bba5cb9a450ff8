import IncidentPipeline.Foundation.Fibers

/-!
# The calibration error

Part 4b of `eval/scripts/score_m5_dev` in exact arithmetic: the reliability bins over the
pairs of a confidence and whether the field was correct, and the expected calibration
error that is summed over the bins that are not empty.
-/

namespace IncidentPipeline.Scoring

open Fibers

abbrev Point := ℚ × Bool

/-- `bin_edges[i]`. -/
def binEdge (i : Nat) : ℚ := i / 10

/-- Bins are half open, but for the last. -/
def inBin (i : Nat) (p : Point) : Bool :=
  if i = 9 then binEdge i ≤ p.1 && p.1 ≤ binEdge (i + 1)
  else binEdge i ≤ p.1 && p.1 < binEdge (i + 1)

def binPts (i : Nat) (pts : List Point) : List Point := fiber inBin i pts

def meanConf (pts : List Point) : ℚ := (pts.map Prod.fst).sum / pts.length

def accuracy (pts : List Point) : ℚ := pts.countP Prod.snd / pts.length

/-- The step of the loop over the bins; `ece` is the sum so far. -/
def eceStep (pts : List Point) (ece : ℚ) (i : Nat) : ℚ :=
  if (binPts i pts).length = 0 then ece
  else ece + (binPts i pts).length / pts.length *
    |accuracy (binPts i pts) - meanConf (binPts i pts)|

def ece (pts : List Point) : ℚ := (List.range 10).foldl (eceStep pts) 0

variable {pts pts' : List Point} {p : Point} {i : Nat}

/-! ### The bins -/

/-- The bin of a confidence. -/
def binOf (p : Point) : Nat := min ⌊10 * p.1⌋₊ 9

theorem binOf_lt (p : Point) : binOf p < 10 := by
  rw [binOf]
  omega

theorem inBin_iff (low : 0 ≤ p.1) (high : p.1 ≤ 1) (bin : i < 10) :
    inBin i p = true ↔ i = binOf p := by
  have scaled : 0 ≤ 10 * p.1 := by positivity
  rw [inBin, binOf]
  split
  · next last =>
      subst last
      have reached : 9 ≤ ⌊10 * p.1⌋₊ ↔ (9 : ℚ) ≤ 10 * p.1 := Nat.le_floor_iff scaled
      have within : 9 = min ⌊10 * p.1⌋₊ 9 ↔ 9 ≤ ⌊10 * p.1⌋₊ := by omega
      rw [within, reached, Bool.and_eq_true, decide_eq_true_eq, decide_eq_true_eq, binEdge, binEdge]
      constructor
      · rintro ⟨lower, _⟩
        push_cast at lower
        linarith
      · intro lower
        push_cast
        exact ⟨by linarith, by linarith⟩
  · next inner =>
      have floor : ⌊10 * p.1⌋₊ = i ↔ (i : ℚ) ≤ 10 * p.1 ∧ 10 * p.1 < i + 1 :=
        Nat.floor_eq_iff scaled
      have within : i = min ⌊10 * p.1⌋₊ 9 ↔ ⌊10 * p.1⌋₊ = i := by omega
      rw [within, floor, Bool.and_eq_true, decide_eq_true_eq, decide_eq_true_eq, binEdge, binEdge]
      push_cast
      constructor
      · rintro ⟨lower, upper⟩
        exact ⟨by linarith, by linarith⟩
      · rintro ⟨lower, upper⟩
        exact ⟨by linarith, by linarith⟩

theorem bins_partition (unit : ∀ p ∈ pts, 0 ≤ p.1 ∧ p.1 ≤ 1) :
    Partition inBin (List.range 10) pts := by
  refine partition_of_index binOf List.nodup_range ?_ ?_
  · exact fun p _ => List.mem_range.mpr (binOf_lt p)
  · intro p hp i hi
    exact inBin_iff (unit p hp).1 (unit p hp).2 (List.mem_range.mp hi)

/-! ### The error of a list of points -/

/-- How far the confidence of a point falls short of whether it is correct. -/
def shortfall (p : Point) : ℚ := (if p.2 then 1 else 0) - p.1

theorem abs_shortfall_le (low : 0 ≤ p.1) (high : p.1 ≤ 1) : |shortfall p| ≤ 1 := by
  rw [shortfall, abs_le]
  split <;> constructor <;> linarith

/-- The gap between the accuracy and the mean confidence of some points. -/
def gap (pts : List Point) : ℚ := |accuracy pts - meanConf pts|

theorem sum_shortfall (pts : List Point) :
    (pts.map shortfall).sum = pts.countP Prod.snd - (pts.map Prod.fst).sum := by
  induction pts with
  | nil => simp
  | cons p rest ih =>
      rw [List.map_cons, List.sum_cons, ih, List.countP_cons, List.map_cons, List.sum_cons,
        shortfall]
      split <;> push_cast <;> ring

theorem length_mul_gap (pts : List Point) :
    pts.length * gap pts = |(pts.map shortfall).sum| := by
  rw [sum_shortfall, gap, accuracy, meanConf]
  by_cases empty : pts.length = 0
  · rw [List.length_eq_zero_iff.mp empty]
    simp
  · have positive : (0 : ℚ) < pts.length := by exact_mod_cast Nat.pos_of_ne_zero empty
    rw [← sub_div, abs_div, abs_of_pos positive]
    field_simp

theorem foldl_eceStep (pts : List Point) (bins : List Nat) (start : ℚ) :
    bins.foldl (eceStep pts) start =
      start + (bins.map fun i => (binPts i pts).length / pts.length * gap (binPts i pts)).sum := by
  induction bins generalizing start with
  | nil => simp
  | cons i rest ih =>
      rw [List.foldl_cons, ih, List.map_cons, List.sum_cons, eceStep, gap]
      split
      · next empty => simp [empty]
      · ring

/-- The sum of the weighted gaps is the sum of the bins' shortfalls in size. -/
theorem length_mul_ece (nonempty : pts ≠ []) :
    pts.length * ece pts =
      ((List.range 10).map fun i => |((binPts i pts).map shortfall).sum|).sum := by
  have positive : (pts.length : ℚ) ≠ 0 := by
    exact_mod_cast mt List.length_eq_zero_iff.mp nonempty
  rw [ece, foldl_eceStep, zero_add, ← List.sum_map_mul_left]
  refine congrArg List.sum (List.map_congr_left fun i _ => ?_)
  rw [← length_mul_gap, ← mul_assoc, mul_div_cancel₀ _ positive]

theorem gap_perm (perm : pts.Perm pts') : gap pts = gap pts' := by
  rw [gap, gap, accuracy, accuracy, meanConf, meanConf, perm.length_eq, perm.countP_eq,
    (perm.map Prod.fst).sum_eq]

/-- Each point is in one bin, and the error lies between the overall gap and one. It is
the mean of the bins' gaps, each weighted by its size, in whatever order the points
come. -/
theorem ece_bounds (nonempty : pts ≠ []) (unit : ∀ p ∈ pts, 0 ≤ p.1 ∧ p.1 ≤ 1) :
    (∀ p ∈ pts, ∃! i, i < 10 ∧ inBin i p = true) ∧
      ((List.range 10).map fun i => (binPts i pts).length).sum = pts.length ∧
      |accuracy pts - meanConf pts| ≤ ece pts ∧ ece pts ≤ 1 ∧
      pts.length * ece pts =
        ((List.range 10).map fun i => (binPts i pts).length *
          |accuracy (binPts i pts) - meanConf (binPts i pts)|).sum ∧
      ∀ pts', pts.Perm pts' → ece pts' = ece pts := by
  have partition := bins_partition unit
  have positive : (0 : ℚ) < pts.length := by
    exact_mod_cast List.length_pos_iff.mpr nonempty
  refine ⟨?_, length_fibers partition, ?_, ?_, ?_, ?_⟩
  · intro p hp
    refine ⟨binOf p, ⟨binOf_lt p, (inBin_iff (unit p hp).1 (unit p hp).2 (binOf_lt p)).mpr rfl⟩, ?_⟩
    rintro i ⟨bin, inside⟩
    exact (inBin_iff (unit p hp).1 (unit p hp).2 bin).mp inside
  · have scaled : pts.length * gap pts ≤ pts.length * ece pts := by
      rw [length_mul_gap, length_mul_ece nonempty]
      exact abs_sum_le_fibers partition shortfall
    exact le_of_mul_le_mul_left scaled positive
  · have scaled : pts.length * ece pts ≤ pts.length * 1 := by
      rw [length_mul_ece nonempty, mul_one]
      calc ((List.range 10).map fun i => |((binPts i pts).map shortfall).sum|).sum
          ≤ (pts.map fun p => |shortfall p|).sum := sum_fibers_abs_le partition shortfall
        _ ≤ (pts.map fun _ => (1 : ℚ)).sum :=
            List.sum_le_sum fun p hp => abs_shortfall_le (unit p hp).1 (unit p hp).2
        _ = pts.length := by simp
    exact le_of_mul_le_mul_left scaled positive
  · rw [length_mul_ece nonempty]
    exact congrArg List.sum (List.map_congr_left fun i _ => (length_mul_gap _).symm)
  · intro pts' perm
    rw [ece, ece, foldl_eceStep, foldl_eceStep]
    refine congrArg (fun total => 0 + List.sum total) (List.map_congr_left fun i _ => ?_)
    have bin : (binPts i pts).Perm (binPts i pts') := fiber_perm perm i
    rw [gap_perm bin, bin.length_eq, perm.length_eq]

/-- Two confidences on the edges of bins. -/
theorem ece_edges : ece [(7 / 10, true), (1, false)] ≤ 1 := by
  have unit : ∀ p ∈ [((7 : ℚ) / 10, true), (1, false)], 0 ≤ p.1 ∧ p.1 ≤ 1 := by
    simp only [List.forall_mem_cons, List.not_mem_nil, false_imp_iff, implies_true, and_true]
    norm_num
  exact (ece_bounds (List.cons_ne_nil _ _) unit).2.2.2.1

end IncidentPipeline.Scoring
