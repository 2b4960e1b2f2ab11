import Mathlib.Data.ZMod.Basic
import Xpir.Foundations.Reciprocal
import Xpir.Foundations.Shoup

/-!
# Operations of `nfl` on words

The FV cryptosystem computes with polynomials whose coefficients are words of 16, 32 or 64
bits. A modulus has two bits less than a word, and the operations reduce their results
completely. So the words are the residues, and each operation is the one of `ZMod p`. In the
multiplication of 64-bit words, a precomputed reciprocal replaces the division.
-/

namespace Xpir.Nfl

/-- The words that a polynomial consists of. -/
inductive WordType where
  | uint16
  | uint32
  | uint64
  deriving DecidableEq

/-- Number of bits of a word, `kModulusRepresentationBitsize`. -/
def WordType.bits : WordType → ℕ
  | uint16 => 16
  | uint32 => 32
  | uint64 => 64

namespace ops

section Model

variable (T : WordType)

def addmod (x y p : ℕ) : ℕ :=
  let z := (x + y) % 2 ^ T.bits
  z - if p ≤ z then p else 0

def submod (x y p : ℕ) : ℕ :=
  addmod T x ((2 ^ T.bits + p - y) % 2 ^ T.bits) p

/-- The general multiplication, in words of twice the size. -/
def mulmod (x y p : ℕ) : ℕ :=
  x * y % 2 ^ (2 * T.bits) % p

/-- The multiplication of 64-bit words, with the lower word of the reciprocal of the modulus. -/
def mulmod64 (pn x y p : ℕ) : ℕ :=
  let res := x * y % 2 ^ 128
  let q := (pn * (res / 2 ^ 64) + res * 2 ^ 2 % 2 ^ 128) % 2 ^ 128
  let r := (res + 2 ^ 128 - q / 2 ^ 64 * p % 2 ^ 128) % 2 ^ 128 % 2 ^ 64
  if p ≤ r then r - p else r

def compute_shoup (x p : ℕ) : ℕ :=
  x % p * 2 ^ T.bits / p % 2 ^ T.bits

def mulmod_shoup (x y yprime p : ℕ) : ℕ :=
  let q := x * yprime / 2 ^ T.bits % 2 ^ T.bits
  let res := (((x * y : ℕ) : ℤ) - (q * p : ℕ)) % 2 ^ T.bits
  res.toNat - if p ≤ res.toNat then p else 0

end Model

section Exactness

variable {T : WordType} {p x y : ℕ}

theorem sub_ite_eq_mod {z : ℕ} (z_lt : z < 2 * p) : z - (if p ≤ z then p else 0) = z % p := by
  split
  next reached => rw [Nat.mod_eq_sub_mod reached, Nat.mod_eq_of_lt (by omega)]
  next below => rw [Nat.sub_zero, Nat.mod_eq_of_lt (by omega)]

theorem addmod_eq (p_lt : 4 * p < 2 ^ T.bits) (x_lt : x < p) (y_le : y ≤ p) :
    addmod T x y p = (x + y) % p := by
  rw [addmod, Nat.mod_eq_of_lt (by omega)]
  exact sub_ite_eq_mod (by omega)

theorem submod_eq (p_lt : 4 * p < 2 ^ T.bits) (x_lt : x < p) (y_lt : y < p) :
    submod T x y p = (x + (p - y)) % p := by
  have difference : (2 ^ T.bits + p - y) % 2 ^ T.bits = p - y := by
    rw [Nat.add_sub_assoc y_lt.le, Nat.add_mod_left, Nat.mod_eq_of_lt (by omega)]
  rw [submod, difference, addmod_eq p_lt x_lt (by omega)]

theorem mul_lt_two_pow (p_lt : 4 * p < 2 ^ T.bits) (x_lt : x < p) (y_lt : y < p) :
    x * y < 2 ^ (2 * T.bits) := by
  rw [two_mul, pow_add]
  exact Nat.mul_lt_mul'' (by omega) (by omega)

theorem mulmod_eq (p_lt : 4 * p < 2 ^ T.bits) (x_lt : x < p) (y_lt : y < p) :
    mulmod T x y p = x * y % p := by
  rw [mulmod, Nat.mod_eq_of_lt (mul_lt_two_pow p_lt x_lt y_lt)]

/-- With the right reciprocal no division is needed. -/
theorem mulmod64_eq {pn : ℕ} (p_lt : 4 * p < 2 ^ 64) (pn_lt : pn < 2 ^ 63)
    (pn_eq : pn + 4 * 2 ^ 64 = 2 ^ 64 * 2 ^ 64 / p) (x_lt : x < p) (y_lt : y < p) :
    mulmod64 pn x y p = x * y % p := by
  have p_pos : 0 < p := by omega
  have product_lt : x * y < 2 ^ 124 :=
    calc x * y < p * p := Nat.mul_lt_mul'' x_lt y_lt
      _ ≤ 2 ^ 62 * 2 ^ 62 := Nat.mul_le_mul (by omega) (by omega)
      _ = 2 ^ 124 := by rw [← pow_add]
  have high_lt : x * y / 2 ^ 64 < 2 ^ 60 := Nat.div_lt_of_lt_mul (by omega)
  have partial_lt : pn * (x * y / 2 ^ 64) < 2 ^ 123 :=
    calc pn * (x * y / 2 ^ 64) < 2 ^ 63 * 2 ^ 60 := Nat.mul_lt_mul'' pn_lt high_lt
      _ = 2 ^ 123 := by rw [← pow_add]
  have quotient_eq : (pn * (x * y / 2 ^ 64) + x * y * 2 ^ 2) / 2 ^ 64 =
      reciprocalQuotient (2 ^ 64) pn 4 (x * y) := by
    rw [reciprocalQuotient, mul_comm 4, show 2 ^ 2 = 4 from rfl]
  have below := @reciprocalQuotient_mul_le (2 ^ 64) p pn 4 (x * y) (Nat.two_pow_pos 64)
    (by rw [pn_eq]; exact Nat.div_mul_le_self _ _)
  rcases @sub_reciprocalQuotient_mul (2 ^ 64) p pn 4 (x * y) (Nat.two_pow_pos 64) p_pos pn_eq
    (by omega) with ⟨difference_lt, corrected⟩
  have word : (x * y + 2 ^ 128 - reciprocalQuotient (2 ^ 64) pn 4 (x * y) * p % 2 ^ 128) %
      2 ^ 128 % 2 ^ 64 = x * y - reciprocalQuotient (2 ^ 64) pn 4 (x * y) * p := by
    omega
  simp only [mulmod64]
  rw [Nat.mod_eq_of_lt (by omega : x * y < 2 ^ 128),
    Nat.mod_eq_of_lt (by omega : x * y * 2 ^ 2 < 2 ^ 128),
    Nat.mod_eq_of_lt (by omega : pn * (x * y / 2 ^ 64) + x * y * 2 ^ 2 < 2 ^ 128), quotient_eq,
    word]
  exact corrected

theorem compute_shoup_eq (y_lt : y < p) : compute_shoup T y p = y * 2 ^ T.bits / p := by
  have quotient_lt : y * 2 ^ T.bits / p < 2 ^ T.bits :=
    Nat.div_lt_of_lt_mul (Nat.mul_lt_mul_of_pos_right y_lt (Nat.two_pow_pos _))
  rw [compute_shoup, Nat.mod_eq_of_lt y_lt, Nat.mod_eq_of_lt quotient_lt]

/-- The word that the estimated quotient leaves is not reduced completely. -/
theorem shoupWord_eq (p_lt : 4 * p < 2 ^ T.bits) (x_lt : x < 2 ^ T.bits) (y_lt : y < p) :
    (((x * y : ℕ) : ℤ) - (x * compute_shoup T y p / 2 ^ T.bits % 2 ^ T.bits * p : ℕ)) %
      2 ^ T.bits = (shoupRemainder (2 ^ T.bits) x y p : ℕ) := by
  have p_pos : 0 < p := by omega
  have quotient_lt : y * 2 ^ T.bits / p < 2 ^ T.bits :=
    Nat.div_lt_of_lt_mul (Nat.mul_lt_mul_of_pos_right y_lt (Nat.two_pow_pos _))
  have high_lt : x * (y * 2 ^ T.bits / p) / 2 ^ T.bits < 2 ^ T.bits :=
    Nat.div_lt_of_lt_mul (Nat.mul_lt_mul'' x_lt quotient_lt)
  have remainder_lt := shoupRemainder_lt p_pos x_lt y
  rw [compute_shoup_eq y_lt, Nat.mod_eq_of_lt high_lt, ← shoupRemainder_add (2 ^ T.bits) x y p,
    Nat.cast_add, add_sub_cancel_right]
  exact Int.emod_eq_of_lt (by positivity) (by exact_mod_cast (by omega))

/-- Multiplication by an operand with its quotient. -/
theorem mulmod_shoup_eq (p_lt : 4 * p < 2 ^ T.bits) (x_lt : x < p) (y_lt : y < p) :
    mulmod_shoup T x y (compute_shoup T y p) p = x * y % p := by
  have remainder_lt := shoupRemainder_lt (show 0 < p by omega) (show x < 2 ^ T.bits by omega) y
  rw [mulmod_shoup]
  simp only [shoupWord_eq p_lt (show x < 2 ^ T.bits by omega) y_lt, Int.toNat_natCast]
  rw [sub_ite_eq_mod remainder_lt, shoupRemainder_mod]

end Exactness

/-! ## Words as residues -/

section Residues

variable {T : WordType} {p : ℕ} [NeZero p]

theorem addmod_val (p_lt : 4 * p < 2 ^ T.bits) (x y : ZMod p) :
    addmod T x.val y.val p = (x + y).val := by
  rw [addmod_eq p_lt x.val_lt y.val_lt.le, ZMod.val_add]

theorem submod_val (p_lt : 4 * p < 2 ^ T.bits) (x y : ZMod p) :
    submod T x.val y.val p = (x - y).val := by
  rw [submod_eq p_lt x.val_lt y.val_lt]
  have residue : ((x.val + (p - y.val) : ℕ) : ZMod p) = x - y := by
    rw [Nat.cast_add, Nat.cast_sub y.val_lt.le, ZMod.natCast_self, ZMod.natCast_zmod_val,
      ZMod.natCast_zmod_val, zero_sub, sub_eq_add_neg]
  rw [← residue, ZMod.val_natCast]

theorem mulmod_val (p_lt : 4 * p < 2 ^ T.bits) (x y : ZMod p) :
    mulmod T x.val y.val p = (x * y).val := by
  rw [mulmod_eq p_lt x.val_lt y.val_lt, ZMod.val_mul]

theorem mulmod64_val {pn : ℕ} (p_lt : 4 * p < 2 ^ 64) (pn_lt : pn < 2 ^ 63)
    (pn_eq : pn + 4 * 2 ^ 64 = 2 ^ 64 * 2 ^ 64 / p) (x y : ZMod p) :
    mulmod64 pn x.val y.val p = (x * y).val := by
  rw [mulmod64_eq p_lt pn_lt pn_eq x.val_lt y.val_lt, ZMod.val_mul]

theorem mulmod_shoup_val (p_lt : 4 * p < 2 ^ T.bits) (x y : ZMod p) :
    mulmod_shoup T x.val y.val (compute_shoup T y.val p) p = (x * y).val := by
  rw [mulmod_shoup_eq p_lt x.val_lt y.val_lt, ZMod.val_mul]

end Residues

end ops

end Xpir.Nfl
