import Mathlib.Algebra.Field.ZMod
import Mathlib.Data.Fin.VecNotation
import Mathlib.Data.ZMod.Basic
import Mathlib.RingTheory.RootsOfUnity.PrimitiveRoots

/-!
# Moduli and roots of unity

This file contains the constants of the library: the moduli, a primitive
`2 ^ 14`-th root of unity for each of them, and the inverse of the largest
degree modulo each of them.

A `Modulus` carries the relations between these three numbers that the
transforms rely on. The constants of the library satisfy them
(`standardModulus`), and so do any odd prime below `2 ^ 62` and any primitive
root of unity of that order (`Modulus.ofPrimitiveRoot`).
-/

namespace Xpir

namespace NFLlib

/-- Largest polynomial degree. -/
def kMaxPolyDegree : ℕ := 8192

/-- Number of bits a modulus counts for when parameters are chosen. -/
def kModulusBitsize : ℕ := 60

/-- Number of moduli of the library. -/
abbrev kMaxNbModuli : ℕ := 17

theorem one_le_kMaxNbModuli : 1 ≤ kMaxNbModuli := by decide

theorem two_le_kMaxNbModuli : 2 ≤ kMaxNbModuli := by decide

theorem degree1024_pos : 0 < 1024 := by decide

theorem degree1024_le : 1024 ≤ kMaxPolyDegree := by decide

theorem degree2048_pos : 0 < 2048 := by decide

theorem degree2048_le : 2048 ≤ kMaxPolyDegree := by decide

/-- The moduli, of the form `2 ^ 61 - i * 2 ^ 14 + 1`. -/
def P64 : Fin kMaxNbModuli → ℕ :=
  ![2305843009213317121, 2305843009213120513, 2305843009212694529, 2305843009212399617,
    2305843009211662337, 2305843009211596801, 2305843009211400193, 2305843009210580993,
    2305843009210515457, 2305843009210023937, 2305843009209057281, 2305843009208795137,
    2305843009208713217, 2305843009208123393, 2305843009207468033, 2305843009206976513,
    2305843009206845441]

/-- A primitive `2 ^ 14`-th root of unity for each of the moduli. -/
def primitiveRoots : Fin kMaxNbModuli → ℕ :=
  ![1187132827279672845, 753478288701480417, 717492273700781398, 1965831349000139179,
    2188074825493578002, 232964966911499637, 395215708149128273, 241993652537061162,
    370764889455808762, 1598724739621481826, 610870591815427803, 1880981984715338041,
    1389374064030612248, 1508488901479281364, 2111887543055470169, 2020509703903079203,
    1120240637471598814]

/-- The inverse of `kMaxPolyDegree` modulo each of the moduli. -/
def invkMaxPolyDegree : Fin kMaxNbModuli → ℕ :=
  ![2305561534236606511, 2305561534236409927, 2305561534235983995, 2305561534235689119,
    2305561534234951929, 2305561534234886401, 2305561534234689817, 2305561534233870717,
    2305561534233805189, 2305561534233313729, 2305561534232347191, 2305561534232085079,
    2305561534232003169, 2305561534231413417, 2305561534230758137, 2305561534230266677,
    2305561534230135621]

/-- A modulus together with the constants its transforms are computed from. -/
structure Modulus where
  /-- The modulus. -/
  p : ℕ
  /-- A root of unity of order `2 * kMaxPolyDegree`. -/
  primitiveRoot : ℕ
  /-- The inverse of `kMaxPolyDegree`. -/
  invMaxPolyDegree : ℕ
  one_lt : 1 < p
  p_lt : p < 2 ^ 62
  root_pow : (primitiveRoot : ZMod p) ^ kMaxPolyDegree = -1
  inv_mul : (invMaxPolyDegree : ZMod p) * (kMaxPolyDegree : ZMod p) = 1

theorem Modulus.p_pos (modulus : Modulus) : 0 < modulus.p :=
  Nat.lt_of_succ_lt modulus.one_lt

/-- No power of two is a multiple of the modulus. -/
theorem Modulus.two_pow_mod_ne_zero (modulus : Modulus) (exponent : ℕ) :
    2 ^ exponent % modulus.p ≠ 0 := by
  intro multiple
  have vanishes : (2 : ZMod modulus.p) ^ exponent = 0 := by
    have cast := (ZMod.natCast_eq_zero_iff (2 ^ exponent) modulus.p).mpr
      (Nat.dvd_of_mod_eq_zero multiple)
    push_cast at cast
    exact cast
  have unit : ((modulus.invMaxPolyDegree : ZMod modulus.p) * 2 ^ 13) ^ exponent = 1 := by
    have degree : (kMaxPolyDegree : ZMod modulus.p) = 2 ^ 13 := by norm_num [kMaxPolyDegree]
    rw [← degree, modulus.inv_mul, one_pow]
  rw [mul_pow, ← pow_mul, mul_comm 13, pow_mul, vanishes, zero_pow (by omega), mul_zero] at unit
  have one_lt : Fact (1 < modulus.p) := ⟨modulus.one_lt⟩
  exact zero_ne_one unit

/-- Any primitive root of unity modulo an odd prime gives a modulus. -/
def Modulus.ofPrimitiveRoot {p root : ℕ} [prime : Fact p.Prime] (p_lt : p < 2 ^ 62)
    (p_odd : Odd p) (primitive : IsPrimitiveRoot (root : ZMod p) (2 * kMaxPolyDegree)) :
    Modulus where
  p := p
  primitiveRoot := root
  invMaxPolyDegree := ((kMaxPolyDegree : ZMod p)⁻¹).val
  one_lt := prime.out.one_lt
  p_lt := p_lt
  root_pow := by
    have square : (root : ZMod p) ^ kMaxPolyDegree * (root : ZMod p) ^ kMaxPolyDegree = 1 := by
      rw [← pow_add, ← two_mul, primitive.pow_eq_one]
    rcases mul_self_eq_one_iff.mp square with one | neg
    · have := primitive.dvd_of_pow_eq_one kMaxPolyDegree one
      simp [kMaxPolyDegree] at this
    · exact neg
  inv_mul := by
    have coprime : kMaxPolyDegree.Coprime p := by
      rw [show kMaxPolyDegree = 2 ^ 13 by rfl]
      exact Nat.Coprime.pow_left 13 (Nat.coprime_two_left.mpr p_odd)
    rw [ZMod.natCast_zmod_val, mul_comm]
    exact ZMod.coe_mul_inv_eq_one kMaxPolyDegree coprime

/-! ## The moduli of the library -/

theorem P64_lt (cm : Fin kMaxNbModuli) : P64 cm < 2 ^ 61 := by
  revert cm
  decide

theorem P64_gt (cm : Fin kMaxNbModuli) : 2 ^ 61 - 2 ^ 23 < P64 cm := by
  revert cm
  decide

theorem P64_coprime {left right : Fin kMaxNbModuli} (distinct : left ≠ right) :
    (P64 left).Coprime (P64 right) := by
  revert left right
  decide +kernel

theorem primitiveRoots_pow (cm : Fin kMaxNbModuli) :
    (primitiveRoots cm : ZMod (P64 cm)) ^ kMaxPolyDegree = -1 := by
  have residue : ∀ cm, P64 cm ∣ primitiveRoots cm ^ kMaxPolyDegree + 1 := by decide +kernel
  have vanishes := (ZMod.natCast_eq_zero_iff _ _).mpr (residue cm)
  push_cast at vanishes
  exact eq_neg_of_add_eq_zero_left vanishes

theorem invkMaxPolyDegree_mul (cm : Fin kMaxNbModuli) :
    (invkMaxPolyDegree cm : ZMod (P64 cm)) * (kMaxPolyDegree : ZMod (P64 cm)) = 1 := by
  have residue : ∀ cm, invkMaxPolyDegree cm * kMaxPolyDegree % P64 cm = 1 % P64 cm := by
    decide +kernel
  have congruent := (ZMod.natCast_eq_natCast_iff' _ _ (P64 cm)).mpr (residue cm)
  push_cast at congruent
  exact congruent

/-- The constants of the library for one modulus. -/
def standardModulus (cm : Fin kMaxNbModuli) : Modulus where
  p := P64 cm
  primitiveRoot := primitiveRoots cm
  invMaxPolyDegree := invkMaxPolyDegree cm
  one_lt := by have := P64_gt cm; omega
  p_lt := by have := P64_lt cm; omega
  root_pow := primitiveRoots_pow cm
  inv_mul := invkMaxPolyDegree_mul cm

end NFLlib

end Xpir
