import Mathlib.Data.ZMod.Basic
import Xpir.Foundations.Shoup

/-!
# Operations on polynomial coefficients

This file contains the modular operations on `uint64_t` words. For performance
they often do not reduce completely: most of them subtract the modulus at most
once, or compute modulo `2 ^ 64` a difference known to be small.

Words are natural numbers. A result that the source stores in a `uint64_t` is
reduced modulo `2 ^ 64` unless it cannot overflow.
-/

namespace Xpir

/-- Subtraction of `uint64_t` words. -/
def wordSub (x y : ℕ) : ℕ :=
  (x + (2 ^ 64 - y % 2 ^ 64)) % 2 ^ 64

/-- A difference that fits in a word is computed exactly. -/
theorem wordSub_eq_sub {x y : ℕ} (ordered : y ≤ x) (fits : x - y < 2 ^ 64) :
    wordSub x y = x - y := by
  rw [wordSub]
  omega

namespace NFLlib

/-- `((uint128_t) y << 64) / p`, the quotient precomputed for an operand. -/
def shoupQuotient (y p : ℕ) : ℕ :=
  y * 2 ^ 64 / p % 2 ^ 64

/-- Add, then subtract the modulus if the sum reaches it. -/
def addmod (x y p : ℕ) : ℕ :=
  let z := (x + y) % 2 ^ 64
  if p ≤ z then z - p else z

/-- Add the opposite of `y`, which is reduced only if it has to be. -/
def submod (x y p : ℕ) : ℕ :=
  if y < p then addmod x (p - y) p else addmod x (p - y % p) p

/-- Multiplication with complete reduction. -/
def mulmod (x y p : ℕ) : ℕ :=
  x * y % p

/-- The common part of Shoup's multiplications: `x * y - q * p` on words. -/
def shoupDifference (x y yprime p : ℕ) : ℕ :=
  let q := x * yprime / 2 ^ 64
  wordSub (x * y) (q * p)

/-- Multiplication by an operand whose quotient `yprime` is precomputed. -/
def mulmodShoup (x y yprime p : ℕ) : ℕ :=
  let res := shoupDifference x y yprime p
  if p ≤ res then res - p else res

/-- Fused multiplication and addition with complete reduction. -/
def mulandadd (rop x y p : ℕ) : ℕ :=
  (x * y + rop) % p

/-- Fused multiplication and addition with a precomputed quotient. -/
def mulandaddShoup (rop x y yprime p : ℕ) : ℕ :=
  let sum := (rop + shoupDifference x y yprime p) % 2 ^ 64
  if p ≤ sum then sum - p else sum

/-! ## Addition and subtraction -/

theorem addmod_of_lt {x y p : ℕ} (fits : x + y < 2 ^ 64) :
    addmod x y p = if p ≤ x + y then x + y - p else x + y := by
  simp only [addmod, Nat.mod_eq_of_lt fits]

theorem addmod_lt {x y p : ℕ} (fits : x + y < 2 ^ 64) (small : x + y < 2 * p) :
    addmod x y p < p := by
  rw [addmod_of_lt fits]
  split <;> omega

theorem cast_addmod {x y p : ℕ} (fits : x + y < 2 ^ 64) :
    (addmod x y p : ZMod p) = x + y := by
  rw [addmod_of_lt fits]
  split
  · next reaches => rw [Nat.cast_sub reaches, ZMod.natCast_self, sub_zero, Nat.cast_add]
  · rw [Nat.cast_add]

theorem submod_lt {x y p : ℕ} (p_lt : p < 2 ^ 62) (x_lt : x < p) : submod x y p < p := by
  have reduced : y % p < p := Nat.mod_lt y (by omega)
  rw [submod]
  split
  · next y_lt =>
      rcases Nat.eq_zero_or_pos y with rfl | y_pos
      · rw [addmod_of_lt (by omega), if_pos (by omega)]
        omega
      · exact addmod_lt (by omega) (by omega)
  · rcases Nat.eq_zero_or_pos (y % p) with y_mod | y_mod
    · rw [y_mod, addmod_of_lt (by omega), if_pos (by omega)]
      omega
    · exact addmod_lt (by omega) (by omega)

theorem cast_submod {x y p : ℕ} (p_lt : p < 2 ^ 62) (p_pos : 0 < p) (x_lt : x < p) :
    (submod x y p : ZMod p) = x - y := by
  have reduced : y % p < p := Nat.mod_lt y p_pos
  rw [submod]
  split
  · next y_lt =>
      rw [cast_addmod (by omega), Nat.cast_sub y_lt.le, ZMod.natCast_self]
      ring
  · rw [cast_addmod (by omega), Nat.cast_sub reduced.le, ZMod.natCast_self, ZMod.natCast_mod]
    ring

/-! ## Multiplication -/

theorem shoupQuotient_of_lt {y p : ℕ} (y_lt : y < p) :
    shoupQuotient y p = y * 2 ^ 64 / p := by
  apply Nat.mod_eq_of_lt
  apply Nat.div_lt_of_lt_mul
  exact Nat.mul_lt_mul_of_pos_right y_lt (by omega)

/-- With the right quotient, the difference never wraps and lies below `2 * p`. -/
theorem shoupDifference_eq {x y p : ℕ} (p_lt : p < 2 ^ 62) (x_lt : x < 2 ^ 64) (y_lt : y < p) :
    shoupDifference x y (shoupQuotient y p) p = shoupRemainder (2 ^ 64) x y p := by
  rw [shoupDifference, shoupQuotient_of_lt y_lt]
  apply wordSub_eq_sub (shoupQuotient_mul_le _ x y p)
  have := shoupRemainder_lt (p := p) (by omega) x_lt y
  rw [shoupRemainder] at this
  omega

theorem shoupDifference_lt {x y p : ℕ} (p_lt : p < 2 ^ 62) (x_lt : x < 2 ^ 64) (y_lt : y < p) :
    shoupDifference x y (shoupQuotient y p) p < 2 * p := by
  rw [shoupDifference_eq p_lt x_lt y_lt]
  exact shoupRemainder_lt (by omega) x_lt y

theorem shoupDifference_mod {x y p : ℕ} (p_lt : p < 2 ^ 62) (x_lt : x < 2 ^ 64)
    (y_lt : y < p) : shoupDifference x y (shoupQuotient y p) p % p = x * y % p := by
  rw [shoupDifference_eq p_lt x_lt y_lt, shoupRemainder_mod]

theorem cast_shoupDifference {x y p : ℕ} (p_lt : p < 2 ^ 62) (x_lt : x < 2 ^ 64)
    (y_lt : y < p) : (shoupDifference x y (shoupQuotient y p) p : ZMod p) = x * y := by
  rw [← ZMod.natCast_mod, shoupDifference_mod p_lt x_lt y_lt, ZMod.natCast_mod, Nat.cast_mul]

/-- Shoup's multiplication reduces completely, whatever the word `x`. -/
theorem mulmodShoup_eq {x y p : ℕ} (p_lt : p < 2 ^ 62) (x_lt : x < 2 ^ 64) (y_lt : y < p) :
    mulmodShoup x y (shoupQuotient y p) p = x * y % p := by
  have below := shoupDifference_lt p_lt x_lt y_lt
  rw [← shoupDifference_mod p_lt x_lt y_lt, mulmodShoup]
  split
  · next reaches => rw [Nat.mod_eq_sub_mod reaches, Nat.mod_eq_of_lt (by omega)]
  · rw [Nat.mod_eq_of_lt (by omega)]

theorem cast_mulmodShoup {x y p : ℕ} (p_lt : p < 2 ^ 62) (x_lt : x < 2 ^ 64) (y_lt : y < p) :
    (mulmodShoup x y (shoupQuotient y p) p : ZMod p) = x * y := by
  rw [mulmodShoup_eq p_lt x_lt y_lt, ZMod.natCast_mod, Nat.cast_mul]

theorem mulmodShoup_lt {x y p : ℕ} (p_lt : p < 2 ^ 62) (x_lt : x < 2 ^ 64) (y_lt : y < p) :
    mulmodShoup x y (shoupQuotient y p) p < p := by
  rw [mulmodShoup_eq p_lt x_lt y_lt]
  exact Nat.mod_lt _ (by omega)

@[simp]
theorem cast_mulmod (x y p : ℕ) : (mulmod x y p : ZMod p) = x * y := by
  rw [mulmod, ZMod.natCast_mod, Nat.cast_mul]

theorem mulmod_lt {p : ℕ} (p_pos : 0 < p) (x y : ℕ) : mulmod x y p < p :=
  Nat.mod_lt _ p_pos

/-! ## Fused multiplication and addition -/

@[simp]
theorem cast_mulandadd (rop x y p : ℕ) : (mulandadd rop x y p : ZMod p) = x * y + rop := by
  rw [mulandadd, ZMod.natCast_mod, Nat.cast_add, Nat.cast_mul]

/-- A sum that fits in a word keeps its residue. -/
theorem cast_mulandaddShoup {rop x y p : ℕ} (p_lt : p < 2 ^ 62) (x_lt : x < 2 ^ 64)
    (y_lt : y < p) (fits : rop + shoupDifference x y (shoupQuotient y p) p < 2 ^ 64) :
    (mulandaddShoup rop x y (shoupQuotient y p) p : ZMod p) = x * y + rop := by
  have sum : ((rop + shoupDifference x y (shoupQuotient y p) p : ℕ) : ZMod p) =
      x * y + rop := by
    rw [Nat.cast_add, cast_shoupDifference p_lt x_lt y_lt, add_comm]
  rw [mulandaddShoup, Nat.mod_eq_of_lt fits]
  split
  · next reaches => rw [Nat.cast_sub reaches, sum, ZMod.natCast_self, sub_zero]
  · exact sum

end NFLlib

end Xpir
