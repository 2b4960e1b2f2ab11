import Mathlib.Data.Nat.Basic
import Mathlib.Tactic.Linarith
import Mathlib.Tactic.Ring

/-!
# Division by a number with a precomputed reciprocal

To divide many numbers of two words by a fixed `p`, one precomputes `word ^ 2 / p`. This is
a small multiple of a word and a rest of one word, and only the rest has to be multiplied,
with the high word of the dividend. The quotient that is found in this way is right or too
small by one.
-/

namespace Xpir

/-- The quotient of `x` that is estimated from the reciprocal `rest + multiple * word`. -/
def reciprocalQuotient (word rest multiple x : ℕ) : ℕ :=
  (rest * (x / word) + multiple * x) / word

variable {word p rest multiple x : ℕ}

theorem reciprocalQuotient_mul_le (word_pos : 0 < word)
    (reciprocal_le : (rest + multiple * word) * p ≤ word * word) :
    reciprocalQuotient word rest multiple x * p ≤ x := by
  have scaled : reciprocalQuotient word rest multiple x * p * (word * word) ≤ x * (word * word) :=
    calc reciprocalQuotient word rest multiple x * p * (word * word)
        = reciprocalQuotient word rest multiple x * word * (word * p) := by ring
      _ ≤ (rest * (x / word) + multiple * x) * (word * p) :=
          Nat.mul_le_mul_right _ (Nat.div_mul_le_self _ _)
      _ = (rest * (x / word * word) + multiple * x * word) * p := by ring
      _ ≤ (rest * x + multiple * x * word) * p :=
          Nat.mul_le_mul_right _
            (Nat.add_le_add_right (Nat.mul_le_mul_left _ (Nat.div_mul_le_self _ _)) _)
      _ = x * ((rest + multiple * word) * p) := by ring
      _ ≤ x * (word * word) := Nat.mul_le_mul_left _ reciprocal_le
  exact Nat.le_of_mul_le_mul_right scaled (Nat.mul_pos word_pos word_pos)

/-- The estimate is too small by one at most, if the dividend and the rest are not too large. -/
theorem lt_reciprocalQuotient_add_two_mul (word_pos : 0 < word) (p_pos : 0 < p)
    (reciprocal_gt : word * word < (rest + multiple * word) * p + p)
    (small : rest * word + x ≤ word * word) :
    x < (reciprocalQuotient word rest multiple x + 2) * p := by
  have high : x < (x / word + 1) * word := by
    have := Nat.div_add_mod' x word
    have := Nat.mod_lt x word_pos
    rw [Nat.add_mul, one_mul]
    omega
  have estimate : rest * (x / word) + multiple * x <
      (reciprocalQuotient word rest multiple x + 1) * word := by
    rw [reciprocalQuotient, Nat.add_mul, one_mul]
    have := Nat.div_add_mod' (rest * (x / word) + multiple * x) word
    have := Nat.mod_lt (rest * (x / word) + multiple * x) word_pos
    omega
  generalize reciprocalQuotient word rest multiple x = quotient at estimate ⊢
  have scaled : x * (word * word) < (quotient + 2) * p * (word * word) :=
    calc x * (word * word)
        ≤ x * ((rest + multiple * word) * p + p) := Nat.mul_le_mul_left _ reciprocal_gt.le
      _ = (rest * x + multiple * x * word + x) * p := by ring
      _ ≤ (rest * ((x / word + 1) * word) + multiple * x * word + x) * p := by
          gcongr
      _ = ((rest * (x / word) + multiple * x) * word + (rest * word + x)) * p := by ring
      _ < ((quotient + 1) * word * word + word * word) * p := by
          refine Nat.mul_lt_mul_of_pos_right ?_ p_pos
          exact Nat.add_lt_add_of_lt_of_le (Nat.mul_lt_mul_of_pos_right estimate word_pos) small
      _ = (quotient + 2) * p * (word * word) := by ring
  exact Nat.lt_of_mul_lt_mul_right scaled

/-- One subtraction corrects what the estimate leaves. -/
theorem sub_reciprocalQuotient_mul (word_pos : 0 < word) (p_pos : 0 < p)
    (reciprocal_eq : rest + multiple * word = word * word / p)
    (small : rest * word + x ≤ word * word) :
    x - reciprocalQuotient word rest multiple x * p < 2 * p ∧
      (if p ≤ x - reciprocalQuotient word rest multiple x * p then
        x - reciprocalQuotient word rest multiple x * p - p
      else x - reciprocalQuotient word rest multiple x * p) = x % p := by
  have reciprocal := Nat.div_add_mod' (word * word) p
  have rest_lt := Nat.mod_lt (word * word) p_pos
  have below := @reciprocalQuotient_mul_le word p rest multiple x word_pos
    (by rw [reciprocal_eq]; exact Nat.div_mul_le_self _ _)
  have above := lt_reciprocalQuotient_add_two_mul word_pos p_pos
    (by rw [reciprocal_eq]; omega) small
  rw [Nat.add_mul] at above
  have residue : x % p = (x - reciprocalQuotient word rest multiple x * p) % p := by
    conv_lhs => rw [← Nat.sub_add_cancel below, Nat.add_mul_mod_self_right]
  refine ⟨by omega, ?_⟩
  rw [residue]
  split
  next reached =>
    rw [Nat.mod_eq_sub_mod reached, Nat.mod_eq_of_lt (by omega)]
  next reduced => rw [Nat.mod_eq_of_lt (by omega)]

end Xpir
