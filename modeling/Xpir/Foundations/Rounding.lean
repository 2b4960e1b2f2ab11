import Mathlib.Algebra.Order.Floor.Div
import Mathlib.Algebra.Order.Ring.Int
import Mathlib.Data.Int.Log
import Mathlib.Data.Rat.Floor
import Mathlib.Tactic.FieldSimp
import Mathlib.Tactic.Linarith
import Mathlib.Tactic.NormNum
import Mathlib.Tactic.Positivity
import Mathlib.Tactic.Ring

/-!
# Rounding to significant bits

A floating-point operation returns the exact result rounded to the nearest number
with a given number of significant bits, ties going to the even significand. The
numbers considered here are not negative and stay within the exponent range, so
that the number of bits is all that matters.

Natural numbers with few enough bits are not changed by the rounding, and the
rounding never crosses one of them. This is enough for the rounded-up quotients by
which sizes are computed: with a dividend of few enough bits they are exact.
-/

namespace Xpir

/-- The nearest integer, the even one of two. -/
def roundHalfEven (x : ℚ) : ℤ :=
  if x - ⌊x⌋ < 1 / 2 then ⌊x⌋
  else if 1 / 2 < x - ⌊x⌋ then ⌊x⌋ + 1
  else if ⌊x⌋ % 2 = 0 then ⌊x⌋ else ⌊x⌋ + 1

/-- The distance of the numbers with the given number of bits that are near a number. -/
def ulp (bits : ℕ) (x : ℚ) : ℚ := 2 ^ (Int.log 2 x + 1 - bits)

def roundTo (bits : ℕ) (x : ℚ) : ℚ := roundHalfEven (x / ulp bits x) * ulp bits x

/-- `static_cast<float>` and the operations on `float`. -/
def toFloat (x : ℚ) : ℚ := roundTo 24 x

/-- `(double)` and the operations on `double`. -/
def toDouble (x : ℚ) : ℚ := roundTo 53 x

section Integers

theorem floor_le_roundHalfEven (x : ℚ) : ⌊x⌋ ≤ roundHalfEven x := by
  rw [roundHalfEven]
  split_ifs <;> omega

theorem roundHalfEven_le_floor (x : ℚ) : roundHalfEven x ≤ ⌊x⌋ + 1 := by
  rw [roundHalfEven]
  split_ifs <;> omega

/-- The rounding does not cross an integer from below. -/
theorem roundHalfEven_le {x : ℚ} {bound : ℤ} (le : x ≤ bound) : roundHalfEven x ≤ bound := by
  rcases lt_or_eq_of_le le with below | rfl
  · have floor_lt : ⌊x⌋ < bound := Int.floor_lt.mpr below
    exact (roundHalfEven_le_floor x).trans floor_lt
  · rw [roundHalfEven, Int.floor_intCast, sub_self, if_pos (by norm_num)]

theorem le_roundHalfEven {x : ℚ} {bound : ℤ} (le : bound ≤ x) : bound ≤ roundHalfEven x :=
  (Int.le_floor.mpr le).trans (floor_le_roundHalfEven x)

theorem roundHalfEven_intCast (value : ℤ) : roundHalfEven value = value :=
  le_antisymm (roundHalfEven_le le_rfl) (le_roundHalfEven le_rfl)

theorem abs_roundHalfEven_sub_le (x : ℚ) : |(roundHalfEven x : ℚ) - x| ≤ 1 / 2 := by
  have below := Int.floor_le x
  have above := Int.lt_floor_add_one x
  rw [abs_le, roundHalfEven]
  split_ifs <;> push_cast <;> constructor <;> linarith

end Integers

section Bits

variable {bits : ℕ} {x : ℚ}

theorem ulp_pos : 0 < ulp bits x := zpow_pos (by norm_num) _

/-- Below `2 ^ bits`, the numbers with that many bits include the integers. -/
theorem exists_ulp_eq_inv (pos : 0 < x) (lt : x < 2 ^ bits) : ∃ k : ℕ, ulp bits x = (2 ^ k)⁻¹ := by
  have log_lt : Int.log 2 x < bits := by
    apply (Int.lt_zpow_iff_log_lt (by decide) pos).mp
    exact_mod_cast lt
  refine ⟨(bits - 1 - Int.log 2 x).toNat, ?_⟩
  rw [ulp, ← zpow_natCast, ← zpow_neg, Int.toNat_of_nonneg (by omega)]
  congr 1
  omega

/-- Rounding does not cross an integer below `2 ^ bits` from below. -/
theorem roundTo_le_natCast {bound : ℕ} (bound_lt : bound < 2 ^ bits) (nonneg : 0 ≤ x)
    (le : x ≤ bound) : roundTo bits x ≤ bound := by
  rcases nonneg.eq_or_lt with rfl | pos
  · rw [roundTo, zero_div, show (0 : ℚ) = ((0 : ℤ) : ℚ) from rfl, roundHalfEven_intCast,
      Int.cast_zero, zero_mul]
    exact Nat.cast_nonneg bound
  · have below : x < 2 ^ bits := le.trans_lt (by exact_mod_cast bound_lt)
    rcases exists_ulp_eq_inv pos below with ⟨k, ulp_eq⟩
    have scaled : x / ulp bits x ≤ ((bound * 2 ^ k : ℕ) : ℤ) := by
      rw [ulp_eq, div_inv_eq_mul]
      push_cast
      exact mul_le_mul_of_nonneg_right le (by positivity)
    have rounded : (roundHalfEven (x / ulp bits x) : ℚ) ≤ (bound * 2 ^ k : ℕ) := by
      exact_mod_cast roundHalfEven_le scaled
    rw [roundTo]
    calc (roundHalfEven (x / ulp bits x) : ℚ) * ulp bits x
        ≤ (bound * 2 ^ k : ℕ) * ulp bits x := mul_le_mul_of_nonneg_right rounded ulp_pos.le
      _ = bound := by
        rw [ulp_eq]
        push_cast
        field_simp

/-- The rounded number is at least the power of two below the number. -/
theorem zpow_log_le_roundTo (bits_pos : 0 < bits) (pos : 0 < x) :
    (2 : ℚ) ^ Int.log 2 x ≤ roundTo bits x := by
  have log_le : (2 : ℚ) ^ Int.log 2 x ≤ x := Int.zpow_log_le_self (by decide) pos
  have split_log : (2 : ℚ) ^ Int.log 2 x = ((2 ^ (bits - 1) : ℕ) : ℤ) * ulp bits x := by
    rw [ulp]
    push_cast
    rw [← zpow_natCast, ← zpow_add₀ (by norm_num)]
    congr 1
    omega
  have scaled : (((2 ^ (bits - 1) : ℕ) : ℤ) : ℚ) ≤ x / ulp bits x := by
    rw [le_div_iff₀ ulp_pos, ← split_log]
    exact log_le
  have rounded := le_roundHalfEven scaled
  rw [roundTo, split_log]
  exact mul_le_mul_of_nonneg_right (by exact_mod_cast rounded) ulp_pos.le

/-- Rounding does not cross an integer up to `2 ^ bits` from above. -/
theorem natCast_le_roundTo {bound : ℕ} (bits_pos : 0 < bits) (bound_le : bound ≤ 2 ^ bits)
    (pos : 0 < x) (le : (bound : ℚ) ≤ x) : (bound : ℚ) ≤ roundTo bits x := by
  rcases lt_or_ge x (2 ^ bits) with below | above
  · rcases exists_ulp_eq_inv pos below with ⟨k, ulp_eq⟩
    have scaled : (((bound * 2 ^ k : ℕ) : ℤ) : ℚ) ≤ x / ulp bits x := by
      rw [ulp_eq, div_inv_eq_mul]
      push_cast
      exact mul_le_mul_of_nonneg_right le (by positivity)
    have rounded : ((bound * 2 ^ k : ℕ) : ℚ) ≤ roundHalfEven (x / ulp bits x) := by
      exact_mod_cast le_roundHalfEven scaled
    rw [roundTo]
    calc (bound : ℚ) = (bound * 2 ^ k : ℕ) * ulp bits x := by
          rw [ulp_eq]
          push_cast
          field_simp
      _ ≤ roundHalfEven (x / ulp bits x) * ulp bits x :=
        mul_le_mul_of_nonneg_right rounded ulp_pos.le
  · have log_ge : (bits : ℤ) ≤ Int.log 2 x := by
      apply (Int.zpow_le_iff_le_log (by decide) pos).mp
      exact_mod_cast above
    calc (bound : ℚ) ≤ 2 ^ (bits : ℤ) := by exact_mod_cast bound_le
      _ ≤ 2 ^ Int.log 2 x := zpow_le_zpow_right₀ (by norm_num) log_ge
      _ ≤ roundTo bits x := zpow_log_le_roundTo bits_pos pos

theorem roundTo_natCast {value : ℕ} (value_lt : value < 2 ^ bits) :
    roundTo bits value = value := by
  rcases Nat.eq_zero_or_pos value with rfl | value_pos
  · apply le_antisymm
    · exact_mod_cast roundTo_le_natCast value_lt le_rfl le_rfl
    · rw [roundTo, Nat.cast_zero, zero_div, show (0 : ℚ) = ((0 : ℤ) : ℚ) from rfl,
        roundHalfEven_intCast, Int.cast_zero, zero_mul]
  · have bits_pos : 0 < bits := by
      rcases Nat.eq_zero_or_pos bits with rfl | pos
      · omega
      · exact pos
    exact le_antisymm (roundTo_le_natCast value_lt (Nat.cast_nonneg value) le_rfl)
      (natCast_le_roundTo bits_pos value_lt.le (by exact_mod_cast value_pos) le_rfl)

theorem roundTo_nonneg (nonneg : 0 ≤ x) : 0 ≤ roundTo bits x := by
  have scaled : ((0 : ℤ) : ℚ) ≤ x / ulp bits x := by
    rw [Int.cast_zero]
    exact div_nonneg nonneg ulp_pos.le
  exact mul_nonneg (by exact_mod_cast le_roundHalfEven scaled) ulp_pos.le

theorem roundTo_nonpos (nonpos : x ≤ 0) : roundTo bits x ≤ 0 := by
  have scaled : x / ulp bits x ≤ ((0 : ℤ) : ℚ) := by
    rw [Int.cast_zero]
    exact div_nonpos_of_nonpos_of_nonneg nonpos ulp_pos.le
  exact mul_nonpos_of_nonpos_of_nonneg (by exact_mod_cast roundHalfEven_le scaled) ulp_pos.le

/-- The relative error of the rounding. -/
theorem abs_roundTo_sub_le (pos : 0 < x) : |roundTo bits x - x| * 2 ^ bits ≤ x := by
  have log_le : (2 : ℚ) ^ Int.log 2 x ≤ x := Int.zpow_log_le_self (by decide) pos
  have ulp_eq : ulp bits x * 2 ^ bits = 2 * 2 ^ Int.log 2 x := by
    rw [ulp, ← zpow_natCast, ← zpow_add₀ (by norm_num), sub_add_cancel,
      zpow_add₀ (by norm_num), zpow_one, mul_comm]
  have error := abs_roundHalfEven_sub_le (x / ulp bits x)
  have scaled : roundTo bits x - x = (roundHalfEven (x / ulp bits x) - x / ulp bits x) *
      ulp bits x := by
    rw [roundTo, sub_mul, div_mul_cancel₀ _ ulp_pos.ne']
  calc |roundTo bits x - x| * 2 ^ bits
      = |(roundHalfEven (x / ulp bits x) : ℚ) - x / ulp bits x| * (ulp bits x * 2 ^ bits) := by
        rw [scaled, abs_mul, abs_of_pos ulp_pos, mul_assoc]
    _ ≤ 1 / 2 * (ulp bits x * 2 ^ bits) :=
        mul_le_mul_of_nonneg_right error (mul_pos ulp_pos (by positivity)).le
    _ = 2 ^ Int.log 2 x := by rw [ulp_eq]; ring
    _ ≤ x := log_le

end Bits

theorem toFloat_natCast {value : ℕ} (value_lt : value < 2 ^ 24) : toFloat value = value :=
  roundTo_natCast value_lt

theorem toDouble_natCast {value : ℕ} (value_lt : value < 2 ^ 53) : toDouble value = value :=
  roundTo_natCast value_lt

section Quotients

theorem natCeil_div (numerator : ℕ) {denominator : ℕ} (denominator_pos : 0 < denominator) :
    ⌈(numerator : ℚ) / denominator⌉₊ = numerator ⌈/⌉ denominator := by
  apply eq_of_forall_ge_iff
  intro bound
  rw [Nat.ceil_le, ceilDiv_le_iff_le_mul denominator_pos,
    div_le_iff₀ (by exact_mod_cast denominator_pos), mul_comm denominator]
  exact_mod_cast Iff.rfl

theorem ceilDiv_pos {numerator denominator : ℕ} (denominator_pos : 0 < denominator)
    (numerator_pos : 0 < numerator) : 0 < numerator ⌈/⌉ denominator := by
  by_contra zero
  rw [not_lt, ceilDiv_le_iff_le_mul denominator_pos] at zero
  omega

theorem ceilDiv_mul_lt (numerator : ℕ) {denominator : ℕ} (denominator_pos : 0 < denominator) :
    denominator * (numerator ⌈/⌉ denominator) < numerator + denominator := by
  rw [Nat.ceilDiv_eq_add_pred_div]
  have le := Nat.mul_div_le (numerator + denominator - 1) denominator
  omega

/-- A rounded quotient has the right ceiling if the dividend is exact. -/
theorem natCeil_roundTo_div {bits numerator denominator : ℕ} (numerator_lt : numerator < 2 ^ bits)
    (denominator_pos : 0 < denominator) :
    ⌈roundTo bits ((numerator : ℚ) / denominator)⌉₊ = numerator ⌈/⌉ denominator := by
  have denominator_cast : (0 : ℚ) < denominator := by exact_mod_cast denominator_pos
  rcases Nat.eq_zero_or_pos numerator with rfl | numerator_pos
  · have exact_zero := roundTo_natCast (Nat.two_pow_pos bits)
    rw [Nat.cast_zero, zero_div]
    rw [Nat.cast_zero] at exact_zero
    rw [exact_zero, Nat.ceil_zero, zero_ceilDiv]
  have numerator_cast : (0 : ℚ) < numerator := by exact_mod_cast numerator_pos
  have quotient_pos : (0 : ℚ) < numerator / denominator := div_pos numerator_cast denominator_cast
  rw [← natCeil_div numerator denominator_pos]
  have ceil_pos : 0 < ⌈(numerator : ℚ) / denominator⌉₊ := Nat.ceil_pos.mpr quotient_pos
  have ceil_le : ⌈(numerator : ℚ) / denominator⌉₊ ≤ numerator := by
    rw [Nat.ceil_le, div_le_iff₀ denominator_cast]
    exact_mod_cast Nat.le_mul_of_pos_right numerator denominator_pos
  rcases Nat.exists_eq_succ_of_ne_zero ceil_pos.ne' with ⟨below, ceil_eq⟩
  apply le_antisymm
  · rw [Nat.ceil_le]
    exact roundTo_le_natCast (ceil_le.trans_lt numerator_lt) quotient_pos.le (Nat.le_ceil _)
  · -- The quotient exceeds the integer below by more than it is rounded.
    have above : below * denominator + 1 ≤ numerator := by
      have not_le : ¬ (numerator : ℚ) / denominator ≤ below := by
        rw [← Nat.ceil_le, ceil_eq]
        exact Nat.not_succ_le_self below
      rw [div_le_iff₀ denominator_cast] at not_le
      by_contra contrary
      apply not_le
      exact_mod_cast (by omega : numerator ≤ below * denominator)
    have error : |roundTo bits ((numerator : ℚ) / denominator) - numerator / denominator| *
        2 ^ bits ≤ numerator / denominator := abs_roundTo_sub_le quotient_pos
    rw [ceil_eq, Nat.succ_le_iff, Nat.lt_ceil]
    by_contra rounded_le
    have gap : (numerator : ℚ) / denominator - below ≥ 1 / denominator := by
      rw [ge_iff_le, div_le_iff₀ denominator_cast, sub_mul, div_mul_cancel₀ _ denominator_cast.ne']
      have cast_above : ((below * denominator + 1 : ℕ) : ℚ) ≤ numerator := by exact_mod_cast above
      push_cast at cast_above
      linarith
    have distance : 1 / (denominator : ℚ) ≤
        |roundTo bits ((numerator : ℚ) / denominator) - numerator / denominator| := by
      rw [abs_sub_comm]
      apply le_abs.mpr
      left
      linarith [not_lt.mp rounded_le]
    have scaled : (2 : ℚ) ^ bits / denominator ≤ numerator / denominator := by
      calc (2 : ℚ) ^ bits / denominator = 1 / denominator * 2 ^ bits := by ring
        _ ≤ |roundTo bits ((numerator : ℚ) / denominator) - numerator / denominator| * 2 ^ bits :=
          mul_le_mul_of_nonneg_right distance (by positivity)
        _ ≤ numerator / denominator := error
    have cast_le : (2 : ℚ) ^ bits ≤ numerator :=
      (div_le_div_iff_of_pos_right denominator_cast).mp scaled
    have exact_le : 2 ^ bits ≤ numerator := by exact_mod_cast cast_le
    omega

/-- The same for a dividend and a divisor that are rounded first. -/
theorem natCeil_roundTo_quotient {bits numerator denominator : ℕ}
    (numerator_lt : numerator < 2 ^ bits) (denominator_lt : denominator < 2 ^ bits)
    (denominator_pos : 0 < denominator) :
    ⌈roundTo bits (roundTo bits numerator / roundTo bits denominator)⌉₊ =
      numerator ⌈/⌉ denominator := by
  rw [roundTo_natCast numerator_lt, roundTo_natCast denominator_lt,
    natCeil_roundTo_div numerator_lt denominator_pos]

/-- A common factor does not change the ceiling of a quotient. -/
theorem mul_ceilDiv_mul {factor denominator : ℕ} (factor_pos : 0 < factor)
    (denominator_pos : 0 < denominator) (numerator : ℕ) :
    factor * numerator ⌈/⌉ (factor * denominator) = numerator ⌈/⌉ denominator := by
  apply eq_of_forall_ge_iff
  intro bound
  rw [ceilDiv_le_iff_le_mul (Nat.mul_pos factor_pos denominator_pos),
    ceilDiv_le_iff_le_mul denominator_pos, Nat.mul_assoc]
  exact Nat.mul_le_mul_left_iff factor_pos

end Quotients

section Thresholds

variable {bits : ℕ} {x : ℚ}

theorem log_mul_zpow (pos : 0 < x) (exponent : ℤ) :
    Int.log 2 (x * 2 ^ exponent) = Int.log 2 x + exponent := by
  have power_pos : (0 : ℚ) < 2 ^ exponent := zpow_pos (by norm_num) _
  apply eq_of_forall_le_iff
  intro bound
  have scaled : ((2 : ℕ) : ℚ) ^ bound ≤ x * 2 ^ exponent ↔
      ((2 : ℕ) : ℚ) ^ (bound - exponent) ≤ x := by
    rw [Nat.cast_ofNat, zpow_sub₀ (by norm_num), div_le_iff₀ power_pos]
  rw [← Int.zpow_le_iff_le_log (by decide) (mul_pos pos power_pos), scaled,
    Int.zpow_le_iff_le_log (by decide) pos]
  omega

/-- Rounding does not depend on the exponent. -/
theorem roundTo_mul_zpow (pos : 0 < x) (exponent : ℤ) :
    roundTo bits (x * 2 ^ exponent) = roundTo bits x * 2 ^ exponent := by
  have power_ne : (2 : ℚ) ^ exponent ≠ 0 := (zpow_pos (by norm_num) _).ne'
  have scaled : ulp bits (x * 2 ^ exponent) = ulp bits x * 2 ^ exponent := by
    rw [ulp, ulp, log_mul_zpow pos, ← zpow_add₀ (by norm_num)]
    congr 1
    omega
  rw [roundTo, roundTo, scaled, mul_div_mul_right _ _ power_ne, mul_assoc]

/--
The integers that use all bits: there is no rounded number between two of them, and a number
half way is rounded to the even one.
-/
theorem roundTo_le_iff_of_floor {value : ℕ} {bound : ℚ} (bits_pos : 0 < bits)
    (value_ge : 2 ^ (bits - 1) ≤ value) (value_lt : value < 2 ^ bits) (bound_ge : value ≤ bound)
    (bound_lt : bound < value + 1) (pos : 0 < x) :
    roundTo bits x ≤ bound ↔
      if value % 2 = 0 then x ≤ value + 1 / 2 else x < value + 1 / 2 := by
  rcases le_or_gt x value with below | above
  · have rounded := roundTo_le_natCast value_lt pos.le below
    refine iff_of_true (rounded.trans bound_ge) ?_
    split_ifs <;> linarith
  rcases le_or_gt ((value + 1 : ℕ) : ℚ) x with beyond | near
  · have rounded := natCast_le_roundTo bits_pos (by omega : value + 1 ≤ 2 ^ bits) pos beyond
    push_cast at rounded beyond
    refine iff_of_false (by linarith) ?_
    split_ifs <;> linarith
  · -- The integers are the numbers with so many bits here.
    have log_eq : Int.log 2 x = bits - 1 := by
      apply le_antisymm
      · rw [Int.le_sub_one_iff, ← Int.lt_zpow_iff_log_lt (by decide) pos]
        exact_mod_cast near.trans_le (by exact_mod_cast value_lt)
      · rw [← Int.zpow_le_iff_le_log (by decide) pos]
        calc (((2 : ℕ) : ℚ)) ^ ((bits : ℤ) - 1) = ((2 ^ (bits - 1) : ℕ) : ℚ) := by
              rw [Nat.cast_pow, ← zpow_natCast]
              congr 1
              omega
          _ ≤ value := by exact_mod_cast value_ge
          _ ≤ x := above.le
    have ulp_eq : ulp bits x = 1 := by
      rw [ulp, log_eq, sub_add_cancel, sub_self, zpow_zero]
    have floor_eq : ⌊x⌋ = (value : ℤ) := by
      rw [Int.floor_eq_iff]
      push_cast at near ⊢
      exact ⟨above.le, near⟩
    have parity : (value : ℤ) % 2 = 0 ↔ value % 2 = 0 := by omega
    rw [roundTo, ulp_eq, div_one, mul_one, roundHalfEven, floor_eq]
    simp only [parity]
    push_cast
    split_ifs <;> first | exact iff_of_true (by linarith) (by linarith) |
      exact iff_of_false (by linarith) (by linarith)

/--
The number is rounded to at most the given integer. The significands of the rounded numbers
are counted by the distance of the numbers with so many bits at the integer.
-/
def RoundsDownTo (bits value : ℕ) (x : ℚ) : Prop :=
  if value = 0 then x ≤ 0
  else if ⌊value / ulp bits value⌋₊ % 2 = 0 then
    x ≤ (⌊value / ulp bits value⌋₊ + 1 / 2) * ulp bits value
  else x < (⌊value / ulp bits value⌋₊ + 1 / 2) * ulp bits value

/-- An integer uses all bits when it is counted by its own distance. -/
theorem natCast_div_ulp {value : ℕ} (bits_pos : 0 < bits) (value_pos : 0 < value) :
    (2 : ℚ) ^ (bits - 1) ≤ value / ulp bits value ∧ value / ulp bits value < 2 ^ bits := by
  have cast_pos : (0 : ℚ) < value := by exact_mod_cast value_pos
  have log_le : (2 : ℚ) ^ Int.log 2 (value : ℚ) ≤ value := Int.zpow_log_le_self (by decide) cast_pos
  have lt_log : (value : ℚ) < 2 ^ (Int.log 2 (value : ℚ) + 1) :=
    Int.lt_zpow_succ_log_self (by decide) _
  rw [le_div_iff₀ ulp_pos, div_lt_iff₀ ulp_pos, ulp, ← zpow_natCast, ← zpow_natCast,
    ← zpow_add₀ (by norm_num), ← zpow_add₀ (by norm_num)]
  constructor
  · rwa [show ((bits - 1 : ℕ) : ℤ) + (Int.log 2 (value : ℚ) + 1 - bits) = Int.log 2 (value : ℚ) by
      omega]
  · rwa [show (bits : ℤ) + (Int.log 2 (value : ℚ) + 1 - bits) = Int.log 2 (value : ℚ) + 1 by omega]

theorem roundTo_le_natCast_iff {value : ℕ} (bits_pos : 0 < bits) (pos : 0 < x) :
    roundTo bits x ≤ value ↔ RoundsDownTo bits value x := by
  rw [RoundsDownTo]
  split
  next zero =>
    rw [zero, Nat.cast_zero]
    refine iff_of_false (not_le.mpr ?_) (not_le.mpr pos)
    exact (zpow_pos (by norm_num) _).trans_le (zpow_log_le_roundTo bits_pos pos)
  next value_ne =>
    rcases @natCast_div_ulp bits value bits_pos (Nat.pos_of_ne_zero value_ne) with
      ⟨quotient_ge, quotient_lt⟩
    have power_pos : (0 : ℚ) < ulp bits value := ulp_pos
    have quotient_nonneg : (0 : ℚ) ≤ value / ulp bits value := by positivity
    have rounded : roundTo bits (x / ulp bits value) = roundTo bits x / ulp bits value := by
      rw [ulp, div_eq_mul_inv, div_eq_mul_inv, ← zpow_neg, roundTo_mul_zpow pos]
    have scaled := roundTo_le_iff_of_floor bits_pos
      (Nat.le_floor (by exact_mod_cast quotient_ge))
      ((Nat.floor_lt quotient_nonneg).mpr (by exact_mod_cast quotient_lt))
      (Nat.floor_le quotient_nonneg) (Nat.lt_floor_add_one _) (div_pos pos power_pos)
    rw [rounded, div_le_div_iff_of_pos_right power_pos, div_le_iff₀ power_pos,
      div_lt_iff₀ power_pos] at scaled
    exact scaled

theorem RoundsDownTo.of_le {value : ℕ} {y : ℚ} (rounds : RoundsDownTo bits value y) (le : x ≤ y) :
    RoundsDownTo bits value x := by
  rw [RoundsDownTo] at rounds ⊢
  split_ifs at rounds ⊢
  · exact le.trans rounds
  · exact le.trans rounds
  · exact le.trans_lt rounds

/-- A number that is rounded to at most an integer exceeds it by half the distance at most. -/
theorem RoundsDownTo.le {value : ℕ} (rounds : RoundsDownTo bits value x) :
    x ≤ value + ulp bits value / 2 := by
  have power_pos : (0 : ℚ) < ulp bits value := ulp_pos
  rw [RoundsDownTo] at rounds
  split at rounds
  next zero =>
    rw [zero] at power_pos ⊢
    push_cast at power_pos ⊢
    linarith
  next =>
    have quotient_nonneg : (0 : ℚ) ≤ value / ulp bits value := by positivity
    have floor_le := mul_le_mul_of_nonneg_right (Nat.floor_le quotient_nonneg) power_pos.le
    rw [div_mul_cancel₀ _ power_pos.ne'] at floor_le
    split at rounds <;> linarith

theorem ulp_mul_two_pow_le (pos : 0 < x) : ulp bits x * 2 ^ bits ≤ 2 * x := by
  have log_le : (2 : ℚ) ^ Int.log 2 x ≤ x := Int.zpow_log_le_self (by decide) pos
  calc ulp bits x * 2 ^ bits = 2 * 2 ^ Int.log 2 x := by
        rw [ulp, ← zpow_natCast, ← zpow_add₀ (by norm_num), sub_add_cancel,
          zpow_add₀ (by norm_num), zpow_one, mul_comm]
    _ ≤ 2 * x := by linarith

theorem ulp_le_two_pow {exponent : ℕ} (pos : 0 < x) (lt : x < 2 ^ (bits + exponent)) :
    ulp bits x ≤ 2 ^ exponent := by
  have log_lt : Int.log 2 x < (bits + exponent : ℕ) := by
    apply (Int.lt_zpow_iff_log_lt (by decide) pos).mp
    rw [zpow_natCast]
    exact_mod_cast lt
  rw [ulp, ← zpow_natCast]
  apply zpow_le_zpow_right₀ (by norm_num)
  push_cast at log_lt
  omega

/-- Rounding does not cross a number with few enough bits from above. -/
theorem natCast_mul_zpow_le_roundTo {value : ℕ} {exponent : ℤ} (bits_pos : 0 < bits)
    (value_le : value ≤ 2 ^ bits) (pos : 0 < x) (le : value * 2 ^ exponent ≤ x) :
    value * 2 ^ exponent ≤ roundTo bits x := by
  have power_pos : (0 : ℚ) < 2 ^ exponent := zpow_pos (by norm_num) _
  have scaled : roundTo bits x = roundTo bits (x / 2 ^ exponent) * 2 ^ exponent := by
    rw [← roundTo_mul_zpow (div_pos pos power_pos), div_mul_cancel₀ _ power_pos.ne']
  rw [scaled]
  apply mul_le_mul_of_nonneg_right _ power_pos.le
  exact natCast_le_roundTo bits_pos value_le (div_pos pos power_pos)
    ((le_div_iff₀ power_pos).mpr le)

/-- There is no rounded number between two integers that use all bits. -/
theorem succ_le_roundTo {value : ℕ} (bits_pos : 0 < bits) (value_ge : 2 ^ (bits - 1) ≤ value)
    (value_lt : value < 2 ^ bits) (pos : 0 < x) (lt : value < roundTo bits x) :
    value + 1 ≤ roundTo bits x := by
  by_contra below
  have near := (roundTo_le_iff_of_floor bits_pos value_ge value_lt lt.le (not_le.mp below) pos).mp
    le_rfl
  have at_most := (roundTo_le_iff_of_floor bits_pos value_ge value_lt le_rfl (lt_add_one _)
    pos).mpr near
  linarith

/-- When the ceiling of a rounded number is a given integer. -/
theorem natCeil_roundTo_eq_iff {count : ℕ} (bits_pos : 0 < bits) (count_pos : 0 < count)
    (pos : 0 < x) :
    ⌈roundTo bits x⌉₊ = count ↔
      ¬ RoundsDownTo bits (count - 1) x ∧ RoundsDownTo bits count x := by
  rw [Nat.ceil_eq_iff count_pos.ne', roundTo_le_natCast_iff bits_pos pos, ← not_le,
    roundTo_le_natCast_iff bits_pos pos]

theorem roundTo_mul_two_pow_le (nonneg : 0 ≤ x) :
    roundTo bits x * 2 ^ bits ≤ x * (2 ^ bits + 1) := by
  rcases nonneg.eq_or_lt with rfl | pos
  · have zero := roundTo_natCast (Nat.two_pow_pos bits)
    rw [Nat.cast_zero] at zero
    rw [zero, zero_mul, zero_mul]
  have error := @abs_roundTo_sub_le bits _ pos
  have power_pos : (0 : ℚ) < 2 ^ bits := by positivity
  have above := mul_le_mul_of_nonneg_right (le_abs_self (roundTo bits x - x)) power_pos.le
  linarith

theorem le_roundTo_mul_two_pow (nonneg : 0 ≤ x) :
    x * (2 ^ bits - 1) ≤ roundTo bits x * 2 ^ bits := by
  rcases nonneg.eq_or_lt with rfl | pos
  · have zero := roundTo_natCast (Nat.two_pow_pos bits)
    rw [Nat.cast_zero] at zero
    rw [zero, zero_mul, zero_mul]
  have error := @abs_roundTo_sub_le bits _ pos
  have power_pos : (0 : ℚ) < 2 ^ bits := by positivity
  have below := mul_le_mul_of_nonneg_right (neg_abs_le (roundTo bits x - x)) power_pos.le
  linarith

end Thresholds

end Xpir
