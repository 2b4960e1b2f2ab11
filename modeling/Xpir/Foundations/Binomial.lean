import Mathlib.Data.Nat.Choose.Sum
import Mathlib.FieldTheory.Finite.Basic
import Mathlib.RingTheory.Polynomial.Pochhammer

/-!
# Powers modulo a power

A power of `1 + n` is a sum of binomial coefficients times powers of `n`, of which only the
first ones remain modulo a power of `n`. A binomial coefficient depends on its upper argument
only modulo the modulus, as long as the factorial of the lower one can be cancelled.

For a product `n` of two primes, the units modulo `n ^ (s + 1)` have orders that divide
`n ^ s * lcm (p - 1) (q - 1)` (`pow_mul_lcm_modEq_one`).
-/

namespace Xpir

open Finset

/-- The binomial expansion, without the terms that a power of `n` divides. -/
theorem one_add_pow_modEq (n i j : ℕ) :
    (1 + n) ^ i ≡ ∑ k ∈ range j, i.choose k * n ^ k [MOD n ^ j] := by
  have expansion : (1 + n) ^ i = ∑ k ∈ range (j + (i + 1)), i.choose k * n ^ k := by
    rw [Nat.add_comm 1 n, add_pow]
    have all : range (i + 1) ⊆ range (j + (i + 1)) :=
      range_subset_range.mpr (Nat.le_add_left _ _)
    rw [← sum_subset all]
    · apply sum_congr rfl
      intro k _
      rw [one_pow, mul_one, mul_comm]
      rfl
    · intro k _ beyond
      rw [mem_range, not_lt] at beyond
      rw [Nat.choose_eq_zero_of_lt beyond, zero_mul]
  have divisible : ∑ k ∈ range (i + 1), i.choose (j + k) * n ^ (j + k) ≡ 0 [MOD n ^ j] := by
    rw [Nat.modEq_zero_iff_dvd]
    apply dvd_sum
    intro k _
    exact (pow_dvd_pow n (Nat.le_add_right j k)).mul_left _
  rw [expansion, sum_range_add]
  exact (Nat.ModEq.refl _).add divisible

theorem descFactorial_modEq {modulus i other : ℕ} (same : i ≡ other [MOD modulus]) (k : ℕ) :
    i.descFactorial k ≡ other.descFactorial k [MOD modulus] := by
  rw [Nat.modEq_iff_dvd] at same ⊢
  rw [← descPochhammer_eval_eq_descFactorial ℤ, ← descPochhammer_eval_eq_descFactorial ℤ]
  exact same.trans (Polynomial.sub_dvd_eval_sub _ _ _)

theorem choose_modEq {modulus i other k : ℕ} (coprime : k.factorial.Coprime modulus)
    (same : i ≡ other [MOD modulus]) : i.choose k ≡ other.choose k [MOD modulus] := by
  have products := descFactorial_modEq same k
  rw [Nat.descFactorial_eq_factorial_mul_choose, Nat.descFactorial_eq_factorial_mul_choose]
    at products
  exact products.cancel_left_of_coprime coprime.symm

section Units

variable {p q : ℕ}

theorem pow_modEq_one_of_dvd {r modulus exponent : ℕ} (coprime : r.Coprime modulus)
    (dvd : modulus.totient ∣ exponent) : r ^ exponent ≡ 1 [MOD modulus] := by
  rcases dvd with ⟨factor, rfl⟩
  have unit := (Nat.ModEq.pow_totient coprime).pow factor
  rwa [← pow_mul, one_pow] at unit

/-- The exponent of the group of units of a product of powers of primes. -/
theorem pow_mul_lcm_modEq_one (prime_p : p.Prime) (prime_q : q.Prime) (distinct : p ≠ q)
    {r : ℕ} (coprime : r.Coprime (p * q)) (s : ℕ) :
    r ^ ((p * q) ^ s * (p - 1).lcm (q - 1)) ≡ 1 [MOD (p * q) ^ (s + 1)] := by
  have primes_coprime : p.Coprime q := (Nat.coprime_primes prime_p prime_q).mpr distinct
  have powers_coprime : (p ^ (s + 1)).Coprime (q ^ (s + 1)) := primes_coprime.pow _ _
  rw [mul_pow p q (s + 1), ← Nat.modEq_and_modEq_iff_modEq_mul powers_coprime]
  constructor
  · apply pow_modEq_one_of_dvd (Nat.Coprime.pow_right _ coprime.coprime_mul_right_right)
    rw [Nat.totient_prime_pow_succ prime_p, mul_pow]
    exact mul_dvd_mul (dvd_mul_right _ _) (Nat.dvd_lcm_left _ _)
  · apply pow_modEq_one_of_dvd (Nat.Coprime.pow_right _ coprime.coprime_mul_left_right)
    rw [Nat.totient_prime_pow_succ prime_q, mul_pow]
    exact mul_dvd_mul (dvd_mul_left _ _) (Nat.dvd_lcm_right _ _)

end Units

end Xpir
