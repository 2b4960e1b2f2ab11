import Mathlib.Data.Nat.Basic
import Mathlib.Data.Nat.ModEq
import Mathlib.Tactic.Common
import Mathlib.Tactic.Ring

/-!
# Multiplication by an operand with a precomputed quotient

To multiply many words by a fixed `y` modulo `p`, one precomputes the quotient
`y * word / p`. The high half of `x * (y * word / p)` is then so good an estimate
of `x * y / p` that the remainder it leaves lies below `2 * p`, for every word
`x` whatever its size relative to `p`.

The remainder is not below `p` in general, and the excess is what matters when
remainders are accumulated: `shoupRemainder_mul_lt` bounds it by the fraction
`x / word` of `p`.
-/

namespace Xpir

/-- What the estimated quotient leaves of `x * y`. -/
def shoupRemainder (word x y p : ℕ) : ℕ :=
  x * y - x * (y * word / p) / word * p

theorem shoupQuotient_mul_le (word x y p : ℕ) :
    x * (y * word / p) / word * p ≤ x * y := by
  rcases Nat.eq_zero_or_pos word with rfl | word_pos
  · simp
  · have scaled : x * (y * word / p) / word * p * word ≤ x * y * word :=
      calc x * (y * word / p) / word * p * word
          = x * (y * word / p) / word * word * p := by ring
        _ ≤ x * (y * word / p) * p := Nat.mul_le_mul_right _ (Nat.div_mul_le_self _ _)
        _ = x * (y * word / p * p) := by ring
        _ ≤ x * (y * word) := Nat.mul_le_mul_left _ (Nat.div_mul_le_self _ _)
        _ = x * y * word := by ring
    exact Nat.le_of_mul_le_mul_right scaled word_pos

theorem shoupRemainder_add (word x y p : ℕ) :
    shoupRemainder word x y p + x * (y * word / p) / word * p = x * y :=
  Nat.sub_add_cancel (shoupQuotient_mul_le word x y p)

/-- The remainder exceeds `p` by at most the fraction `x / word` of `p`. -/
theorem shoupRemainder_mul_lt {word p : ℕ} (word_pos : 0 < word) (p_pos : 0 < p) (x y : ℕ) :
    shoupRemainder word x y p * word < (word + x) * p := by
  have exact := shoupRemainder_add word x y p
  have quotient : y * word < (y * word / p + 1) * p := by
    rw [Nat.add_mul, one_mul]
    have := Nat.div_add_mod' (y * word) p
    have := Nat.mod_lt (y * word) p_pos
    omega
  have high : x * (y * word / p) < (x * (y * word / p) / word + 1) * word := by
    rw [Nat.add_mul, one_mul]
    have := Nat.div_add_mod' (x * (y * word / p)) word
    have := Nat.mod_lt (x * (y * word / p)) word_pos
    omega
  generalize x * (y * word / p) / word = estimate at exact high
  have scaled : shoupRemainder word x y p * word + estimate * p * word <
      (word + x) * p + estimate * p * word :=
    calc shoupRemainder word x y p * word + estimate * p * word
        = x * (y * word) := by rw [← Nat.add_mul, exact, mul_assoc]
      _ ≤ x * ((y * word / p + 1) * p) := Nat.mul_le_mul_left _ quotient.le
      _ = x * (y * word / p) * p + x * p := by ring
      _ < (estimate + 1) * word * p + x * p :=
          Nat.add_lt_add_right (Nat.mul_lt_mul_of_pos_right high p_pos) _
      _ = (word + x) * p + estimate * p * word := by ring
  omega

theorem shoupRemainder_lt {word p x : ℕ} (p_pos : 0 < p) (x_lt : x < word) (y : ℕ) :
    shoupRemainder word x y p < 2 * p := by
  have word_pos : 0 < word := by omega
  have bound : shoupRemainder word x y p * word < 2 * p * word :=
    calc shoupRemainder word x y p * word < (word + x) * p :=
          shoupRemainder_mul_lt word_pos p_pos x y
      _ ≤ (word + word) * p := Nat.mul_le_mul_right _ (by omega)
      _ = 2 * p * word := by ring
  exact Nat.lt_of_mul_lt_mul_right bound

theorem shoupRemainder_mod (word x y p : ℕ) :
    shoupRemainder word x y p % p = x * y % p := by
  conv_rhs => rw [← shoupRemainder_add word x y p]
  rw [Nat.add_mul_mod_self_right]

end Xpir
