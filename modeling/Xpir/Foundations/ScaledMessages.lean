import Mathlib.Algebra.Order.Ring.Abs
import Mathlib.Algebra.Order.Ring.Int
import Mathlib.Data.Int.ModEq
import Mathlib.Tactic.LinearCombination
import Mathlib.Tactic.Linarith
import Mathlib.Tactic.Ring

/-!
# Scaled messages

A message modulo `t` is multiplied with `q / t` and stored modulo a larger `q`, together
with some noise. It is recovered by taking the residue of least absolute value, multiplying
it with `t` and dividing it by `q`, rounded to an integer.

The division rounds towards zero, and away from zero once the remainder reaches a bound.
With half of the divisor as the bound, the quotients whose multiples are nearer than that
are exactly those in range (`divideRounded_eq_iff`). So the message is recovered as long as
its noise, scaled by `t` and corrected by the error of `q / t`, stays below half of `q`.
-/

namespace Xpir

/-- The residue of least absolute value, from the one that is not negative. -/
def centered (modulus residue : ℤ) : ℤ :=
  if modulus / 2 < residue then residue - modulus else residue

/-- The quotient, rounded away from zero if the remainder is at least `bound`. -/
def divideRounded (bound numerator denominator : ℤ) : ℤ :=
  let quotient := numerator.tdiv denominator
  let remainder := numerator.tmod denominator
  if bound ≤ |remainder| then (if 0 < remainder then quotient + 1 else quotient - 1) else quotient

/-- The message of a residue modulo `q`. -/
def descale (t q residue : ℤ) : ℤ :=
  divideRounded (q / 2) (centered q residue * t) q % t

/-- The distances from a multiple of the divisor at which its quotient is the rounded one. -/
def NearMultiple (bound denominator quotient distance : ℤ) : Prop :=
  (if 0 < quotient then bound - denominator ≤ distance else -bound < distance) ∧
    if quotient < 0 then distance ≤ denominator - bound else distance < bound

instance (bound denominator quotient distance : ℤ) :
    Decidable (NearMultiple bound denominator quotient distance) :=
  inferInstanceAs (Decidable (_ ∧ _))

section Centered

variable {modulus residue : ℤ}

theorem centered_modEq (modulus residue : ℤ) :
    centered modulus residue ≡ residue [ZMOD modulus] := by
  rw [centered]
  split
  next => exact Int.modEq_iff_dvd.mpr ⟨1, by ring⟩
  next => exact Int.ModEq.refl _

end Centered

section Division

variable {bound numerator denominator quotient : ℤ}

theorem divideRounded_of_nonneg (nonneg : 0 ≤ numerator) (bound_pos : 0 < bound) :
    divideRounded bound numerator denominator =
      if bound ≤ |numerator % denominator| then numerator / denominator + 1
      else numerator / denominator := by
  rw [divideRounded, Int.tdiv_eq_ediv_of_nonneg nonneg, Int.tmod_eq_emod_of_nonneg nonneg]
  split
  next reached =>
    rcases eq_or_ne denominator 0 with rfl | nonzero
    · rw [Int.emod_zero] at reached ⊢
      rw [abs_of_nonneg nonneg] at reached
      rw [if_pos (by omega)]
    · have remainder_nonneg := Int.emod_nonneg numerator nonzero
      rw [abs_of_nonneg remainder_nonneg] at reached
      rw [if_pos (by omega)]
  next => rfl

theorem divideRounded_neg (bound_pos : 0 < bound) (numerator denominator : ℤ) :
    divideRounded bound (-numerator) denominator = -divideRounded bound numerator denominator := by
  rw [divideRounded, divideRounded, Int.neg_tdiv, Int.neg_tmod, abs_neg]
  split
  next reached =>
    rcases lt_trichotomy (numerator.tmod denominator) 0 with negative | zero | positive
    · rw [if_pos (by omega), if_neg (by omega)]
      ring
    · rw [zero, abs_zero] at reached
      omega
    · rw [if_neg (by omega), if_pos positive]
      ring
  next => rfl

theorem nearMultiple_neg {distance : ℤ} :
    NearMultiple bound denominator (-quotient) (-distance) ↔
      NearMultiple bound denominator quotient distance := by
  simp only [NearMultiple]
  split <;> split <;> split <;> split <;> omega

/-- The rounded quotient of a dividend that is not negative is near it. -/
theorem nearMultiple_divideRounded_of_nonneg (bound_pos : 0 < bound) (bound_lt : bound < denominator)
    (nonneg : 0 ≤ numerator) :
    NearMultiple bound denominator (divideRounded bound numerator denominator)
      (numerator - denominator * divideRounded bound numerator denominator) := by
  have denominator_pos : 0 < denominator := bound_pos.trans bound_lt
  have remainder_nonneg := Int.emod_nonneg numerator denominator_pos.ne'
  have remainder_lt := Int.emod_lt_of_pos numerator denominator_pos
  have quotient_nonneg := Int.ediv_nonneg nonneg denominator_pos.le
  have division := Int.mul_ediv_add_emod numerator denominator
  rw [divideRounded_of_nonneg nonneg bound_pos, abs_of_nonneg remainder_nonneg]
  split
  next reached =>
    rw [NearMultiple, if_pos (by omega), if_neg (by omega), mul_add, mul_one]
    omega
  next below =>
    have distance_eq : numerator - denominator * (numerator / denominator) =
        numerator % denominator := by
      omega
    rw [NearMultiple, distance_eq]
    refine ⟨?_, ?_⟩
    · split <;> omega
    · rw [if_neg (not_lt.mpr quotient_nonneg)]
      omega

theorem nearMultiple_divideRounded (bound_pos : 0 < bound) (bound_lt : bound < denominator)
    (numerator : ℤ) :
    NearMultiple bound denominator (divideRounded bound numerator denominator)
      (numerator - denominator * divideRounded bound numerator denominator) := by
  rcases le_or_gt 0 numerator with nonneg | negative
  · exact nearMultiple_divideRounded_of_nonneg bound_pos bound_lt nonneg
  · have mirrored := nearMultiple_divideRounded_of_nonneg bound_pos bound_lt
      (show 0 ≤ -numerator by omega)
    have distance_eq : -numerator - denominator * -divideRounded bound numerator denominator =
        -(numerator - denominator * divideRounded bound numerator denominator) := by
      ring
    rw [divideRounded_neg bound_pos, distance_eq, nearMultiple_neg] at mirrored
    exact mirrored

/-- No dividend is near the multiples of two quotients. -/
theorem NearMultiple.not_lt {other : ℤ} (bound_pos : 0 < bound) (denominator_pos : 0 < denominator)
    (near : NearMultiple bound denominator quotient (numerator - denominator * quotient))
    (near_other : NearMultiple bound denominator other (numerator - denominator * other)) :
    ¬ quotient < other := by
  intro less
  have apart : denominator * (quotient + 1) ≤ denominator * other :=
    Int.mul_le_mul_of_nonneg_left less denominator_pos.le
  rw [mul_add, mul_one] at apart
  obtain ⟨-, below⟩ := near
  obtain ⟨above, -⟩ := near_other
  rcases lt_trichotomy other 0 with negative | rfl | positive
  · rw [if_neg (by omega)] at above
    rw [if_pos (by omega)] at below
    omega
  · rw [if_neg (by omega)] at above
    rw [if_pos less] at below
    omega
  · rw [if_pos positive] at above
    split at below
    next negative =>
      have further : denominator * (quotient + 2) ≤ denominator * other :=
        Int.mul_le_mul_of_nonneg_left (by omega) denominator_pos.le
      rw [mul_add] at further
      omega
    next => omega

theorem divideRounded_eq_iff (bound_pos : 0 < bound) (bound_lt : bound < denominator) :
    divideRounded bound numerator denominator = quotient ↔
      NearMultiple bound denominator quotient (numerator - denominator * quotient) := by
  have denominator_pos : 0 < denominator := bound_pos.trans bound_lt
  have rounded := nearMultiple_divideRounded bound_pos bound_lt numerator
  constructor
  · rintro rfl
    exact rounded
  · intro near
    exact le_antisymm (not_lt.mp (near.not_lt bound_pos denominator_pos rounded))
      (not_lt.mp (rounded.not_lt bound_pos denominator_pos near))

theorem nearMultiple_of_abs_lt {distance : ℤ} (double : 2 * bound ≤ denominator)
    (near : |distance| < bound) : NearMultiple bound denominator quotient distance := by
  have := abs_lt.mp near
  rw [NearMultiple]
  constructor <;> split <;> omega

theorem NearMultiple.abs_distance_le {distance : ℤ} (double : 2 * bound ≤ denominator)
    (near : NearMultiple bound denominator quotient distance) :
    |distance| ≤ denominator - bound := by
  obtain ⟨above, below⟩ := near
  refine abs_le.mpr ⟨?_, ?_⟩
  · split at above <;> omega
  · split at below <;> omega

end Division

section Descaling

variable {t q residue m e : ℤ}

/-- The noise that counts when the message is taken out again. -/
def scaledNoise (t q m e : ℤ) : ℤ :=
  t * e - q % t * m

/-- The scaled residue is a multiple of `q`, up to the scaled noise. The quotient is the
message up to multiples of `t`. -/
theorem exists_centered_mul (congruent : residue ≡ q / t * m + e [ZMOD q]) :
    ∃ carry, centered q residue * t = q * (m - carry * t) + scaledNoise t q m e := by
  obtain ⟨carry, split⟩ := Int.modEq_iff_dvd.mp ((centered_modEq q residue).trans congruent)
  have division := Int.mul_ediv_add_emod q t
  refine ⟨carry, ?_⟩
  rw [scaledNoise]
  linear_combination (-t) * split + m * division

theorem descale_eq (two_le : 2 ≤ q) (congruent : residue ≡ q / t * m + e [ZMOD q])
    (noise_lt : |scaledNoise t q m e| < q / 2) : descale t q residue = m % t := by
  obtain ⟨carry, product_eq⟩ := exists_centered_mul congruent
  have quotient_eq : divideRounded (q / 2) (centered q residue * t) q = m - carry * t := by
    rw [divideRounded_eq_iff (by omega) (by omega), product_eq, add_sub_cancel_left]
    exact nearMultiple_of_abs_lt (by omega) noise_lt
  rw [descale, quotient_eq, Int.sub_mul_emod_self_right]

/-- Noise of more than half of `q`, up to `q`, always changes the message. -/
theorem descale_ne (two_le : 2 ≤ q) (one_lt : 1 < t)
    (congruent : residue ≡ q / t * m + e [ZMOD q]) (noise_gt : (q + 1) / 2 < |scaledNoise t q m e|)
    (noise_le : |scaledNoise t q m e| ≤ q) : descale t q residue ≠ m % t := by
  obtain ⟨carry, product_eq⟩ := exists_centered_mul congruent
  have rounded_le := (nearMultiple_divideRounded (show 0 < q / 2 by omega)
    (show q / 2 < q by omega) (centered q residue * t)).abs_distance_le (by omega)
  intro same
  obtain ⟨turns, turns_eq⟩ := Int.modEq_iff_dvd.mp same
  have distance_eq : centered q residue * t -
      q * divideRounded (q / 2) (centered q residue * t) q =
        q * (t * (turns - carry)) + scaledNoise t q m e := by
    linear_combination product_eq + q * turns_eq
  rw [distance_eq] at rounded_le
  rcases eq_or_ne (turns - carry) 0 with none | some
  · rw [none, mul_zero, mul_zero, zero_add] at rounded_le
    omega
  · have apart : 2 * q ≤ |q * (t * (turns - carry))| := by
      rw [abs_mul, abs_mul, abs_of_nonneg (show 0 ≤ q by omega), mul_comm 2]
      refine Int.mul_le_mul_of_nonneg_left ?_ (by omega)
      rw [abs_of_nonneg (show 0 ≤ t by omega)]
      exact (show (2 : ℤ) ≤ t * 1 by omega).trans
        (Int.mul_le_mul_of_nonneg_left (Int.one_le_abs some) (by omega))
    have triangle := abs_sub_abs_le_abs_sub (q * (t * (turns - carry)))
      (-scaledNoise t q m e)
    rw [abs_neg, sub_neg_eq_add] at triangle
    omega

end Descaling

end Xpir
