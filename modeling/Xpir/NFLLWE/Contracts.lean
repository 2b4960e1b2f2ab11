import Xpir.NFLLWE.Decryption

/-!
# Contracts of the modular operations

This file states what `mulmodShoup` and `submod` give for operands that are not
reduced, up to the largest words, and what decryption makes of them: the words of
`b - a * s` it hands to the inverse transform.
-/

namespace Xpir

namespace NFLlib

/-- What `submod` adds to its first operand. -/
def opposite (y p : ℕ) : ℕ :=
  if y < p then p - y else p - y % p

section Subtraction

variable {x y p : ℕ}

theorem opposite_eq (y p : ℕ) : opposite y p = p - y % p := by
  rw [opposite]
  split
  · next y_lt => rw [Nat.mod_eq_of_lt y_lt]
  · rfl

theorem submod_eq_addmod (x y p : ℕ) : submod x y p = addmod x (opposite y p) p := by
  rw [submod, opposite]
  split <;> rfl

/-- One conditional subtraction undoes the addition of the modulus. -/
theorem submod_eq (p_pos : 0 < p) (fits : x + p < 2 ^ 64) :
    submod x y p = if y % p ≤ x then x - y % p else x + p - y % p := by
  have reduced := Nat.mod_lt y p_pos
  rw [submod_eq_addmod, opposite_eq, addmod_of_lt (by omega)]
  by_cases ordered : y % p ≤ x
  · rw [if_pos ordered, if_pos (by omega)]
    omega
  · rw [if_neg ordered, if_neg (by omega)]
    omega

theorem submod_modEq (p_pos : 0 < p) (fits : x + p < 2 ^ 64) :
    (submod x y p : ℤ) ≡ x - y [ZMOD p] := by
  have reduced := Nat.mod_lt y p_pos
  rw [← ZMod.intCast_eq_intCast_iff, Int.cast_sub, Int.cast_natCast, Int.cast_natCast,
    Int.cast_natCast, submod_eq p_pos fits]
  split
  · next ordered => rw [Nat.cast_sub ordered, ZMod.natCast_mod]
  · rw [Nat.cast_sub (by omega), Nat.cast_add, ZMod.natCast_self, add_zero, ZMod.natCast_mod]

/-- What a subtraction promises for words that need not be reduced. -/
structure SubmodContract (x y p : ℕ) : Prop where
  no_wrap : x + opposite y p < 2 ^ 64
  congruent : (submod x y p : ℤ) ≡ x - y [ZMOD p]
  bounded : submod x y p ≤ max x (p - 1)
  reduced : x < p → submod x y p < p

theorem submodContract (p_pos : 0 < p) (fits : x + p < 2 ^ 64) : SubmodContract x y p := by
  have reduced := Nat.mod_lt y p_pos
  constructor
  · rw [opposite_eq]
    omega
  · exact submod_modEq p_pos fits
  · rw [submod_eq p_pos fits]
    split <;> omega
  · intro x_lt
    rw [submod_eq p_pos fits]
    split <;> omega

end Subtraction

/-- One word of `b - a * s`, as decryption computes it. -/
def decWord (p a b s : ℕ) : ℕ :=
  submod b (mulandaddShoup 0 a s (shoupQuotient s p) p) p

/-- The subtraction reduces completely although the product does not. -/
theorem decWord_lt {p a b s : ℕ} (p_lt : p < 2 ^ 62) (b_lt : b < p) : decWord p a b s < 2 * p := by
  have := (@submodContract b (mulandaddShoup 0 a s (shoupQuotient s p) p) p
    (show 0 < p by omega) (show b + p < 2 ^ 64 by omega)).reduced b_lt
  rw [decWord]
  omega

end NFLlib

namespace NFLLWE

open NFLlib

variable (lwe : NFLLWE)

theorem decPhase_apply (cipher : Poly lwe.nfl.nbModuli × Poly lwe.nfl.nbModuli)
    (cm : Fin lwe.nfl.nbModuli) {i : ℕ} (i_lt : i < lwe.nfl.polyDegree) :
    lwe.decPhase cipher cm i = decWord (lwe.nfl.moduli cm).p (cipher.1 cm i) (cipher.2 cm i)
      (lwe.secretKey cm i) := by
  simp only [decPhase]
  rw [forLoop_update_apply lwe.nfl.polyDegree (fun i _ => submod (cipher.2 cm i)
    (mulandaddShoup 0 (cipher.1 cm i) (lwe.secretKey cm i)
      (shoupQuotient (lwe.secretKey cm i) (lwe.nfl.moduli cm).p) (lwe.nfl.moduli cm).p)
        (lwe.nfl.moduli cm).p), if_pos i_lt, decWord]

theorem decPhase_lt {cipher : Poly lwe.nfl.nbModuli × Poly lwe.nfl.nbModuli}
    (reduced : lwe.nfl.Reduced cipher.2) (cm : Fin lwe.nfl.nbModuli) {i : ℕ}
    (i_lt : i < lwe.nfl.polyDegree) : lwe.decPhase cipher cm i < 2 * (lwe.nfl.moduli cm).p := by
  rw [decPhase_apply lwe cipher cm i_lt]
  exact decWord_lt (lwe.nfl.moduli cm).p_lt (reduced cm i i_lt)

end NFLLWE

namespace NFLlib

/--
Shoup's multiplication reduces every word completely, subtraction keeps its contract
for every pair of words, and decryption hands words below `2 * p` to the inverse
transform: with any modulus, and with those of any instance of the cryptosystem.
-/
theorem operations_meet_contracts {p : ℕ} (one_lt : 1 < p) (p_lt : p < 2 ^ 62) :
    (∀ x < 2 ^ 64, ∀ y < p, mulmodShoup x y (y * 2 ^ 64 / p) p = x * y % p) ∧
    (∀ x < 2 ^ 64, ∀ y < 2 ^ 64, x + p < 2 ^ 64 → SubmodContract x y p) ∧
    (∀ a < p, ∀ b < p, ∀ s < p, decWord p a b s < 2 * p) ∧
    ∀ (lwe : NFLLWE) (cipher : Poly lwe.nfl.nbModuli × Poly lwe.nfl.nbModuli),
      lwe.nfl.Reduced cipher.1 → lwe.nfl.Reduced cipher.2 →
        ∀ cm, ∀ i < lwe.nfl.polyDegree,
          lwe.decPhase cipher cm i < 2 * (lwe.nfl.moduli cm).p := by
  refine ⟨?_, ?_, ?_, ?_⟩
  · intro x x_lt y y_lt
    rw [← shoupQuotient_of_lt y_lt]
    exact mulmodShoup_eq p_lt x_lt y_lt
  · intro x _ y _ fits
    exact submodContract (by omega) fits
  · intro a _ b b_lt s _
    exact decWord_lt p_lt b_lt
  · intro lwe cipher _ reduced cm i i_lt
    exact lwe.decPhase_lt reduced cm i_lt

/-- The largest modulus, with the largest words. -/
theorem operations_meet_contracts_largest :
    mulmodShoup (2 ^ 64 - 1) (2 ^ 62 - 2) ((2 ^ 62 - 2) * 2 ^ 64 / (2 ^ 62 - 1)) (2 ^ 62 - 1) =
        (2 ^ 64 - 1) * (2 ^ 62 - 2) % (2 ^ 62 - 1) ∧
      SubmodContract (2 ^ 64 - 2 ^ 62) (2 ^ 64 - 1) (2 ^ 62 - 1) ∧
      decWord (2 ^ 62 - 1) (2 ^ 62 - 2) (2 ^ 62 - 2) (2 ^ 62 - 2) < 2 * (2 ^ 62 - 1) := by
  have contracts := @operations_meet_contracts (2 ^ 62 - 1) (by decide) (by decide)
  refine ⟨?_, ?_, ?_⟩
  · exact contracts.1 _ (by decide) _ (by decide)
  · exact contracts.2.1 _ (by decide) _ (by decide) (by decide)
  · exact contracts.2.2.1 _ (by decide) _ (by decide) _ (by decide)

end NFLlib

end Xpir
