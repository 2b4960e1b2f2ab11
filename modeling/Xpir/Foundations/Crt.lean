import Mathlib.Data.Nat.GCD.BigOperators
import Mathlib.Data.ZMod.Basic
import Mathlib.RingTheory.Coprime.Lemmas
import Mathlib.Tactic.Ring

/-!
# Integers from their residues

This file contains the lifting of residues modulo pairwise coprime integers to a
residue modulo their product, by a weighted sum. The weight of one modulus is the
product of the others, times the inverse of that product modulo the one.

An integer of absolute value below half the product is recovered with its sign by
comparing twice the lifted residue to the product; `signedLow_eq` gives the low
bits of such an integer without ever forming a negative number.
-/

namespace Xpir

open Finset

universe u

section Lifting

variable {Index : Type u} [Fintype Index] [DecidableEq Index]

/-- The product of the moduli other than the given one. -/
def cofactor (moduli : Index → ℕ) (index : Index) : ℕ :=
  ∏ other, if other = index then 1 else moduli other

/-- The inverse of an integer modulo another. -/
def inverseModulo (value modulus : ℕ) : ℕ :=
  ((value : ZMod modulus)⁻¹).val

/-- The weight of one modulus. -/
def liftingInteger (moduli : Index → ℕ) (index : Index) : ℕ :=
  cofactor moduli index * inverseModulo (cofactor moduli index) (moduli index)

/-- The residue modulo the product of the moduli with the given residues. -/
def liftResidues (moduli residues : Index → ℕ) : ℕ :=
  (∑ index, liftingInteger moduli index * residues index) % ∏ index, moduli index

variable {moduli : Index → ℕ}

theorem dvd_cofactor {index other : Index} (distinct : other ≠ index) :
    moduli other ∣ cofactor moduli index := by
  have factor := dvd_prod_of_mem
    (fun candidate => if candidate = index then 1 else moduli candidate) (mem_univ other)
  simp only [if_neg distinct] at factor
  exact factor

theorem coprime_cofactor (coprime : ∀ left right, left ≠ right →
    (moduli left).Coprime (moduli right)) (index : Index) :
    (cofactor moduli index).Coprime (moduli index) := by
  apply Nat.Coprime.prod_left
  intro other _
  by_cases same : other = index
  · rw [if_pos same]
    exact Nat.coprime_one_left _
  · rw [if_neg same]
    exact coprime other index same

/-- The weighted sum has the residues it is made from. -/
theorem cast_sum_liftingInteger (coprime : ∀ left right, left ≠ right →
    (moduli left).Coprime (moduli right)) (residues : Index → ℕ) (index : Index) :
    ((∑ other, liftingInteger moduli other * residues other : ℕ) : ZMod (moduli index)) =
      residues index := by
  rw [Nat.cast_sum, sum_eq_single index]
  · have unit := ZMod.coe_mul_inv_eq_one _ (coprime_cofactor coprime index)
    rcases Nat.eq_zero_or_pos (moduli index) with zero | positive
    · have one : cofactor moduli index = 1 := by
        have coprimeZero := coprime_cofactor coprime index
        rwa [zero, Nat.coprime_zero_right] at coprimeZero
      have weight : liftingInteger moduli index = 1 := by
        rw [liftingInteger, inverseModulo, one, Nat.cast_one, one_mul, zero]
        rfl
      rw [weight, one_mul]
    · have nonzero : NeZero (moduli index) := ⟨by omega⟩
      rw [liftingInteger, inverseModulo, Nat.cast_mul, Nat.cast_mul, ZMod.natCast_zmod_val, unit,
        one_mul]
  · intro other _ distinct
    have vanishes : ((cofactor moduli other : ℕ) : ZMod (moduli index)) = 0 :=
      (ZMod.natCast_eq_zero_iff _ _).mpr (dvd_cofactor distinct.symm)
    rw [liftingInteger, Nat.cast_mul, Nat.cast_mul, vanishes, zero_mul, zero_mul]
  · intro absent
    exact absurd (mem_univ index) absent

/-- Residues of an integer lift to its residue modulo the product. -/
theorem liftResidues_eq (coprime : ∀ left right, left ≠ right →
    (moduli left).Coprime (moduli right)) {residues : Index → ℕ} {value : ℤ}
    (agree : ∀ index, (residues index : ZMod (moduli index)) = value) :
    (liftResidues moduli residues : ℤ) = value % (∏ index, moduli index : ℕ) := by
  have divides : ((∏ index, moduli index : ℕ) : ℤ) ∣
      value - (∑ index, liftingInteger moduli index * residues index : ℕ) := by
    rw [Nat.cast_prod]
    apply Fintype.prod_dvd_of_coprime
    · intro left right distinct
      exact Nat.isCoprime_iff_coprime.mpr (coprime left right distinct)
    · intro index
      rw [← ZMod.intCast_eq_intCast_iff_dvd_sub, Int.cast_natCast,
        cast_sum_liftingInteger coprime, agree]
  rw [liftResidues, Int.natCast_mod]
  exact Int.modEq_iff_dvd.mpr divides

end Lifting

/--
The low bits of a small integer, from its residue modulo `product`. A residue above
half the product stands for a negative integer; shifting it by `2 ^ bits - product`
gives that integer plus `2 ^ bits`.
-/
theorem signedLow_eq {product bits absorbed residue : ℕ} {value : ℤ}
    (product_le : product ≤ 2 ^ bits) (absorbed_le : absorbed ≤ bits)
    (residue_eq : (residue : ℤ) = value % product) (small : 2 * |value| < product) :
    (((if product < 2 * residue then residue + (2 ^ bits - product) else residue) %
      2 ^ absorbed : ℕ) : ℤ) = value % 2 ^ absorbed := by
  rcases abs_lt.mp (show |value| < product by omega) with ⟨lower, upper⟩
  have power : (2 : ℤ) ^ absorbed ∣ 2 ^ bits := pow_dvd_pow 2 absorbed_le
  rcases lt_or_ge value 0 with negative | nonnegative
  · have wrapped : (residue : ℤ) = value + product := by
      rw [residue_eq, ← Int.add_emod_right]
      exact Int.emod_eq_of_lt (by omega) (by omega)
    rw [abs_of_neg negative] at small
    rw [if_pos (by omega)]
    have shifted : ((residue + (2 ^ bits - product) : ℕ) : ℤ) = value + 2 ^ bits := by
      rw [Nat.cast_add, Nat.cast_sub product_le, wrapped]
      push_cast
      ring
    rw [Int.natCast_mod, shifted]
    push_cast
    rcases power with ⟨factor, factored⟩
    rw [factored, Int.add_mul_emod_self_left]
  · have same : (residue : ℤ) = value := by
      rw [residue_eq]
      exact Int.emod_eq_of_lt nonnegative upper
    rw [abs_of_nonneg nonnegative] at small
    rw [if_neg (by omega), Int.natCast_mod, same]
    push_cast
    rfl

end Xpir
