import Mathlib.Data.Int.Log
import Mathlib.Data.Rat.Floor
import Mathlib.Tactic

/-!
# Rounding to doubles

The double nearest to a rational number, a tie going to the even significand. The
exponent is not limited: overflow and subnormal numbers are outside of this.
-/

namespace Double

/-- The nearest integer, the even one of two that are equally near. -/
def roundHalfEven (q : ℚ) : ℤ :=
  if q - ⌊q⌋ < 1 / 2 then ⌊q⌋
  else if 1 / 2 < q - ⌊q⌋ then ⌊q⌋ + 1
  else if ⌊q⌋ % 2 = 0 then ⌊q⌋ else ⌊q⌋ + 1

/-- The distance between neighbouring doubles at this magnitude: 53 significant bits. -/
def spacing (q : ℚ) : ℚ := 2 ^ (Int.log 2 |q| - 52)

/-- The double nearest to `q`. -/
def nearest (q : ℚ) : ℚ := roundHalfEven (q / spacing q) * spacing q

/-! ### Rounding to integers -/

theorem roundHalfEven_error (q : ℚ) : |roundHalfEven q - q| ≤ 1 / 2 := by
  have low := Int.floor_le q
  have high := Int.lt_floor_add_one q
  rw [roundHalfEven, abs_le]
  split_ifs <;> push_cast <;> constructor <;> linarith

@[simp] theorem roundHalfEven_intCast (n : ℤ) : roundHalfEven n = n := by
  simp [roundHalfEven]

/-- An integer nearer than one half is the nearest. -/
theorem roundHalfEven_eq {q : ℚ} {n : ℤ} (near : |q - n| < 1 / 2) : roundHalfEven q = n := by
  have error := abs_le.mp (roundHalfEven_error q)
  have close := abs_lt.mp near
  have below : (roundHalfEven q : ℚ) < n + 1 := by linarith
  have above : (n : ℚ) < roundHalfEven q + 1 := by linarith
  have below' : roundHalfEven q < n + 1 := by exact_mod_cast below
  have above' : n < roundHalfEven q + 1 := by exact_mod_cast above
  omega

/-- Of two that are equally near, the even integer is taken. -/
theorem roundHalfEven_tie {q : ℚ} {n : ℤ} (tie : |q - n| = 1 / 2) (even : n % 2 = 0) :
    roundHalfEven q = n := by
  obtain above | below := eq_or_eq_neg_of_abs_eq tie
  · have floor : ⌊q⌋ = n := by
      rw [Int.floor_eq_iff]
      constructor <;> linarith
    rw [roundHalfEven, floor, above]
    norm_num [even]
  · have floor : ⌊q⌋ = n - 1 := by
      rw [Int.floor_eq_iff]
      push_cast
      constructor <;> linarith
    have odd : (n - 1) % 2 ≠ 0 := by omega
    have half : q - (n - 1 : ℤ) = 1 / 2 := by
      push_cast
      linarith
    rw [roundHalfEven, floor, half]
    norm_num [odd]

theorem floor_neg_of_not_int {q : ℚ} (fraction : (⌊q⌋ : ℚ) < q) : ⌊-q⌋ = -⌊q⌋ - 1 := by
  have high := Int.lt_floor_add_one q
  rw [Int.floor_eq_iff]
  push_cast
  constructor <;> linarith

@[simp] theorem roundHalfEven_neg (q : ℚ) : roundHalfEven (-q) = -roundHalfEven q := by
  obtain whole | fraction := (Int.floor_le q).eq_or_lt
  · rw [← whole, ← Int.cast_neg, roundHalfEven_intCast, roundHalfEven_intCast]
  · have mirrored := floor_neg_of_not_int fraction
    rw [roundHalfEven, roundHalfEven, mirrored]
    push_cast
    -- On the tie exactly one of the two neighbours is even, and it is the same one.
    split_ifs <;> first | omega | (exfalso; linarith)

/-! ### Rounding to doubles -/

theorem spacing_pos (q : ℚ) : 0 < spacing q := by
  rw [spacing]
  positivity

@[simp] theorem spacing_neg (q : ℚ) : spacing (-q) = spacing q := by
  rw [spacing, spacing, abs_neg]

@[simp] theorem nearest_zero : nearest 0 = 0 := by
  simp [nearest, roundHalfEven]

@[simp] theorem nearest_neg (q : ℚ) : nearest (-q) = -nearest q := by
  rw [nearest, nearest, spacing_neg, neg_div, roundHalfEven_neg]
  push_cast
  ring

/-- The spacing is small against the number. -/
theorem spacing_le {q : ℚ} (nonzero : q ≠ 0) : spacing q * 2 ^ 52 ≤ |q| := by
  have power : (2 : ℚ) ^ (Int.log 2 |q|) ≤ |q| :=
    Int.zpow_log_le_self (by norm_num) (abs_pos.mpr nonzero)
  calc spacing q * 2 ^ 52 = (2 : ℚ) ^ (Int.log 2 |q|) := by
        rw [spacing, ← zpow_natCast, ← zpow_add₀ (by norm_num)]
        norm_num
    _ ≤ |q| := power

/-- The relative error of one rounding. -/
theorem nearest_error (q : ℚ) : |nearest q - q| ≤ |q| / 2 ^ 53 := by
  by_cases zero : q = 0
  · simp [zero]
  have positive := spacing_pos q
  have error := roundHalfEven_error (q / spacing q)
  have scaled : nearest q - q = (roundHalfEven (q / spacing q) - q / spacing q) * spacing q := by
    rw [nearest, sub_mul, div_mul_cancel₀ _ positive.ne']
  have small := spacing_le zero
  calc |nearest q - q|
      = |roundHalfEven (q / spacing q) - q / spacing q| * spacing q := by
        rw [scaled, abs_mul, abs_of_pos positive]
    _ ≤ 1 / 2 * spacing q := by gcongr
    _ ≤ |q| / 2 ^ 53 := by linarith

/-- Rounding keeps the sign. -/
theorem nearest_neg_iff {q : ℚ} : nearest q < 0 ↔ q < 0 := by
  have error := abs_le.mp (nearest_error q)
  constructor
  · intro negative
    by_contra nonneg
    rw [abs_of_nonneg (not_lt.mp nonneg)] at error
    linarith
  · intro negative
    rw [abs_of_neg negative] at error
    linarith

theorem nearest_pos_iff {q : ℚ} : 0 < nearest q ↔ 0 < q := by
  have mirrored := nearest_neg_iff (q := -q)
  rw [nearest_neg] at mirrored
  simpa using mirrored

/-- The significand, counted in the units of the last of 53 bits, is rounded. -/
theorem nearest_eq {q : ℚ} {e n : ℤ} (low : (2 : ℚ) ^ (e + 52) ≤ |q|)
    (high : |q| < (2 : ℚ) ^ (e + 53)) (rounded : roundHalfEven (q / 2 ^ e) = n) :
    nearest q = n * 2 ^ e := by
  have positive : 0 < |q| := lt_of_lt_of_le (by positivity) low
  have above : e + 52 ≤ Int.log 2 |q| := (Int.zpow_le_iff_le_log (by norm_num) positive).mp low
  have below : Int.log 2 |q| < e + 53 := (Int.lt_zpow_iff_log_lt (by norm_num) positive).mp high
  have unit : spacing q = 2 ^ e := by
    rw [spacing]
    congr 1
    omega
  rw [nearest, unit, rounded]

theorem nearest_eq_of_near {q : ℚ} {e n : ℤ} (low : (2 : ℚ) ^ (e + 52) ≤ |q|)
    (high : |q| < (2 : ℚ) ^ (e + 53)) (near : |q / 2 ^ e - n| < 1 / 2) :
    nearest q = n * 2 ^ e :=
  nearest_eq low high (roundHalfEven_eq near)

/-- Integers of at most 53 bits are doubles. -/
theorem nearest_intCast {n : ℤ} (small : |n| < 2 ^ 53) : nearest n = n := by
  by_cases zero : n = 0
  · simp [zero]
  have positive : (0 : ℚ) < |(n : ℚ)| := by positivity
  have below : Int.log 2 |(n : ℚ)| < 53 := by
    apply (Int.lt_zpow_iff_log_lt (by norm_num) positive).mp
    exact_mod_cast small
  obtain ⟨k, place⟩ : ∃ k : Nat, (k : ℤ) = 52 - Int.log 2 |(n : ℚ)| :=
    ⟨(52 - Int.log 2 |(n : ℚ)|).toNat, by omega⟩
  have unit : spacing n = (2 ^ k)⁻¹ := by
    rw [spacing, ← zpow_natCast, ← zpow_neg, place]
    congr 1
    omega
  have whole : (n : ℚ) / spacing n = ((n * 2 ^ k : ℤ) : ℚ) := by
    rw [unit, div_inv_eq_mul]
    push_cast
    rfl
  rw [nearest, whole, roundHalfEven_intCast, ← whole, div_mul_cancel₀ _ (spacing_pos _).ne']

/-! ### Sums -/

/-- Rounding a sum and rounding its terms differ by three roundings at most. -/
theorem nearest_add_error (p q : ℚ) :
    |nearest (p + q) - (nearest p + nearest q)| ≤ (|p + q| + |p| + |q|) / 2 ^ 53 := by
  have sum := nearest_error (p + q)
  have left := nearest_error p
  have right := nearest_error q
  have split : nearest (p + q) - (nearest p + nearest q) =
      (nearest (p + q) - (p + q)) - (nearest p - p) - (nearest q - q) := by ring
  calc |nearest (p + q) - (nearest p + nearest q)|
      ≤ |nearest (p + q) - (p + q)| + |nearest p - p| + |nearest q - q| := by
        rw [split]
        exact (abs_sub _ _).trans (add_le_add_left (abs_sub _ _) _)
    _ ≤ |p + q| / 2 ^ 53 + |p| / 2 ^ 53 + |q| / 2 ^ 53 := by gcongr
    _ = (|p + q| + |p| + |q|) / 2 ^ 53 := by ring

/-- Nothing is lost among integers of at most 53 bits. -/
theorem nearest_add_intCast {m n : ℤ} (left : |m| < 2 ^ 53) (right : |n| < 2 ^ 53)
    (sum : |m + n| < 2 ^ 53) : nearest (m + n : ℚ) = nearest m + nearest n := by
  rw [nearest_intCast left, nearest_intCast right, ← Int.cast_add, nearest_intCast sum]

/-! ### Quotients of integers -/

/-- A quotient of integers that is not whole is farther from the integers than rounding moves
it. -/
theorem nearest_div_between {a b : ℕ} (small : a < 2 ^ 53) (fraction : 0 < Int.fract (a / b : ℚ)) :
    (⌊(a / b : ℚ)⌋ : ℚ) < nearest (a / b) ∧ nearest (a / b) < ⌊(a / b : ℚ)⌋ + 1 := by
  have positive : 0 < b := by
    by_contra zero
    rw [Nat.eq_zero_of_not_pos zero] at fraction
    simp at fraction
  have scale : (0 : ℚ) < b := by exact_mod_cast positive
  have product : (a / b : ℚ) * b = a := div_mul_cancel₀ _ scale.ne'
  have parts := Int.floor_add_fract (a / b : ℚ)
  have high := Int.lt_floor_add_one (a / b : ℚ)
  generalize ⌊(a / b : ℚ)⌋ = k at parts high ⊢
  -- In units of `1 / b` the distances are integers.
  have below : k * b + 1 ≤ a := by
    have strict : (k : ℚ) * b < a := by
      rw [← product]
      exact mul_lt_mul_of_pos_right (by linarith) scale
    exact_mod_cast strict
  have above : (a : ℤ) + 1 ≤ (k + 1) * b := by
    have strict : (a : ℚ) < (k + 1) * b := by
      rw [← product]
      exact mul_lt_mul_of_pos_right high scale
    exact_mod_cast strict
  have error : |nearest (a / b) - a / b| * b < 1 := by
    have moved := nearest_error (a / b : ℚ)
    rw [abs_of_nonneg (by positivity : (0 : ℚ) ≤ a / b)] at moved
    have bound : (a : ℚ) < 2 ^ 53 := by exact_mod_cast small
    calc |nearest (a / b) - a / b| * b ≤ (a / b : ℚ) / 2 ^ 53 * b :=
          mul_le_mul_of_nonneg_right moved scale.le
      _ = a / 2 ^ 53 := by rw [div_mul_eq_mul_div, product]
      _ < 1 := (div_lt_one (by positivity)).mpr bound
  have below' : (k : ℚ) * b + 1 ≤ a := by exact_mod_cast below
  have above' : (a : ℚ) + 1 ≤ (k + 1) * b := by exact_mod_cast above
  have left : (a / b - nearest (a / b)) * b ≤ |nearest (a / b) - a / b| * b :=
    mul_le_mul_of_nonneg_right (neg_sub (nearest (a / b : ℚ)) _ ▸ neg_le_abs _) scale.le
  have right : (nearest (a / b) - a / b) * b ≤ |nearest (a / b) - a / b| * b :=
    mul_le_mul_of_nonneg_right (le_abs_self _) scale.le
  rw [sub_mul, product] at left right
  constructor
  · exact lt_of_mul_lt_mul_right (by linarith) scale.le
  · exact lt_of_mul_lt_mul_right (by linarith) scale.le

theorem nearest_div_whole {a b : ℕ} (small : a < 2 ^ 53) (whole : Int.fract (a / b : ℚ) = 0) :
    nearest (a / b) = ⌊(a / b : ℚ)⌋ := by
  have same : (⌊(a / b : ℚ)⌋ : ℚ) = a / b := by
    have parts := Int.floor_add_fract (a / b : ℚ)
    rwa [whole, add_zero] at parts
  have nonneg : 0 ≤ ⌊(a / b : ℚ)⌋ := Int.floor_nonneg.mpr (by positivity)
  have bound : (⌊(a / b : ℚ)⌋ : ℚ) ≤ a := by
    rw [same]
    obtain rfl | positive := Nat.eq_zero_or_pos b
    · simp
    · exact div_le_self (by positivity) (by exact_mod_cast positive)
  have bound' : ⌊(a / b : ℚ)⌋ ≤ a := by exact_mod_cast bound
  conv_lhs => rw [← same]
  apply nearest_intCast
  rw [abs_of_nonneg nonneg]
  omega

/-- Rounding a quotient of integers keeps its whole part, -/
theorem floor_nearest_div {a b : ℕ} (small : a < 2 ^ 53) :
    ⌊nearest (a / b : ℚ)⌋ = ⌊(a / b : ℚ)⌋ := by
  obtain fraction | whole := (Int.fract_nonneg (a / b : ℚ)).lt_or_eq
  · obtain ⟨low, high⟩ := nearest_div_between small fraction
    exact Int.floor_eq_iff.mpr ⟨low.le, high⟩
  · rw [nearest_div_whole small whole.symm, Int.floor_intCast]

/-- and whether it has a fraction. -/
theorem fract_nearest_div_pos {a b : ℕ} (small : a < 2 ^ 53) :
    0 < Int.fract (nearest (a / b : ℚ)) ↔ 0 < Int.fract (a / b : ℚ) := by
  obtain fraction | whole := (Int.fract_nonneg (a / b : ℚ)).lt_or_eq
  · have low := (nearest_div_between small fraction).1
    have parts := Int.floor_add_fract (nearest (a / b : ℚ))
    rw [floor_nearest_div small] at parts
    exact iff_of_true (by linarith) fraction
  · rw [nearest_div_whole small whole.symm, Int.fract_intCast, ← whole]

end Double
