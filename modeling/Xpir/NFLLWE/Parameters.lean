import Mathlib.Analysis.SpecialFunctions.Log.Base
import Mathlib.Tactic.Rify
import Xpir.NFLlib.Configure

/-!
# Parameters of the LWE cryptosystem

This file contains the state of the cryptosystem, the sampling of its random
polynomials, and the two operations that change its parameters:
`setNewParameters` and `setandgetAbsBitPerCiphertext`. Both end by recomputing the
noise amplifiers.

The recomputation imports the modulus over the power of two it has just computed,
and reduces an integer that is still null. `recomputeNoiseAmplifiers_abitMod` and
`recomputeNoiseAmplifiers_abitModShoup` state what is left in the amplifiers.
-/

namespace Xpir

open NFLlib

/-! ## Random polynomials -/

/-- Keep the low bits of a random word, and subtract the bound if it is reached. -/
def boundedWord (upperBound rnd : ℕ) : ℕ :=
  let mask := 2 ^ Nat.clog 2 upperBound - 1
  let word := rnd &&& mask
  if upperBound ≤ word then word - upperBound else word

theorem boundedWord_lt {upperBound : ℕ} (upperBound_pos : 0 < upperBound) (rnd : ℕ) :
    boundedWord upperBound rnd < upperBound := by
  have mask_lt : 2 ^ Nat.clog 2 upperBound < 2 * upperBound := by
    rcases Nat.eq_or_lt_of_le (show 1 ≤ upperBound from upperBound_pos) with rfl | one_lt
    · simp
    · have clog_pos : 0 < Nat.clog 2 upperBound := Nat.clog_pos (by omega) one_lt
      have half := Nat.pow_pred_clog_lt_self (show 1 < 2 by omega) one_lt
      rw [Nat.pred_eq_sub_one] at half
      calc 2 ^ Nat.clog 2 upperBound = 2 * 2 ^ (Nat.clog 2 upperBound - 1) := by
            rw [← pow_succ', Nat.sub_add_cancel clog_pos]
        _ < 2 * upperBound := by omega
  have word_lt := Nat.mod_lt rnd (Nat.two_pow_pos (Nat.clog 2 upperBound))
  simp only [boundedWord, Nat.and_two_pow_sub_one_eq_mod]
  split <;> omega

namespace NFLlib

variable (nfl : NFLlib)

/-- A polynomial with the same random coefficients, below a bound, for all moduli. -/
def boundedRandomPoly (upperBound : ℕ) (rnd : ℕ → ℕ) : Poly nfl.nbModuli := fun _ i =>
  boundedWord upperBound (rnd i)

/-- A polynomial with random coefficients modulo each modulus. -/
def uniformRandomPoly (rnd : Poly nfl.nbModuli) : Poly nfl.nbModuli := fun cm i =>
  boundedWord (nfl.moduli cm).p (rnd cm i)

/-- All coefficients of a polynomial are reduced. -/
def Reduced (op : Poly nfl.nbModuli) : Prop :=
  ∀ cm, ∀ i < nfl.polyDegree, op cm i < (nfl.moduli cm).p

theorem reduced_uniformRandomPoly (rnd : Poly nfl.nbModuli) :
    nfl.Reduced (nfl.uniformRandomPoly rnd) := by
  intro cm i _
  exact boundedWord_lt (nfl.moduli cm).p_pos _

/-- Number of bits the moduli count for. -/
def getmodulusBitsize : ℕ :=
  kModulusBitsize * nfl.nbModuli

end NFLlib

/-! ## The cryptosystem -/

/-- The state of the cryptosystem. -/
structure NFLLWE where
  nfl : NFLlib
  noiseUB : ℕ
  /-- Bits absorbed by a coefficient, negative while unknown. -/
  absPerCoordinateBitsize : ℤ
  secretKey : Poly nfl.nbModuli
  abitMod : Fin nfl.nbModuli → ℕ
  abitModShoup : Fin nfl.nbModuli → ℕ
  isStandard : nfl.Standard
  secretKey_lt : nfl.Reduced secretKey

namespace NFLLWE

variable (lwe : NFLLWE)

/-- Bits absorbed by a ciphertext, an `unsigned int`. -/
def getAbsorptionBitsize : ℕ :=
  if lwe.absPerCoordinateBitsize < 0 then 0
  else lwe.nfl.polyDegree * lwe.absPerCoordinateBitsize.toNat % 2 ^ 32

/-- Bits absorbed by a coefficient, as encryption and decryption compute it. -/
def aBits : ℕ :=
  lwe.getAbsorptionBitsize / lwe.nfl.polyDegree

/-- `mpz_import` replaces the integer in its destination. -/
def mpzImport (_destination word : ℕ) : ℕ := word

/-- The variables of the loop recomputing the amplifiers. -/
structure AmplifierState (nbModuli : ℕ) where
  tmpz1 : ℕ
  tmpz2 : ℕ
  abitMod : Fin nbModuli → ℕ
  abitModShoup : Fin nbModuli → ℕ

/-- The body of the loop recomputing the amplifiers. -/
def recomputeNoiseAmplifier (state : AmplifierState lwe.nfl.nbModuli)
    (cm : Fin lwe.nfl.nbModuli) : AmplifierState lwe.nfl.nbModuli :=
  let tmpz2 := 2 ^ lwe.aBits
  let tmpz2 := mpzImport tmpz2 (lwe.nfl.moduli cm).p
  let tmpz1 := state.tmpz1 % tmpz2
  { tmpz1 := tmpz1
    tmpz2 := tmpz2
    abitMod := Function.update state.abitMod cm tmpz1
    abitModShoup :=
      Function.update state.abitModShoup cm (shoupQuotient tmpz1 (lwe.nfl.moduli cm).p) }

/-- Recompute the amplifier of the noise, and its quotient, for each modulus. -/
def recomputeNoiseAmplifiers : NFLLWE :=
  let final := (List.finRange lwe.nfl.nbModuli).foldl lwe.recomputeNoiseAmplifier
    { tmpz1 := 0, tmpz2 := 0, abitMod := lwe.abitMod, abitModShoup := lwe.abitModShoup }
  { lwe with abitMod := final.abitMod, abitModShoup := final.abitModShoup }

/-- The noise bound for a security level. -/
def noiseUpperBound (securityBits : ℕ) : ℕ := 5 * securityBits / 2

/--
Set the parameters and draw a secret key. The program exits if the size of the
modulus is not a multiple of `kModulusBitsize`; no more moduli than those of the
library can be used.
-/
def setNewParameters (securityBits : ℕ) {levels : ℕ} (levels_le : levels ≤ 13)
    (aggregatedModulusBitsize : ℕ) (absPCBitsize : ℤ)
    (rnd : ∀ nbModuli, NFLlib.Poly nbModuli) : Option NFLLWE :=
  if aggregatedModulusBitsize % kModulusBitsize ≠ 0 then none
  else if inRange : aggregatedModulusBitsize / kModulusBitsize ≤ kMaxNbModuli then
    let nfl := standard levels (aggregatedModulusBitsize / kModulusBitsize) levels_le inRange
    some (recomputeNoiseAmplifiers
      { nfl := nfl
        noiseUB := noiseUpperBound securityBits
        absPerCoordinateBitsize := absPCBitsize
        secretKey := nfl.uniformRandomPoly (rnd nfl.nbModuli)
        abitMod := fun _ => 0
        abitModShoup := fun _ => 0
        isStandard := standard_isStandard levels_le inRange
        secretKey_lt := nfl.reduced_uniformRandomPoly _ })
  else none

/--
`floor((p_size - 1 - log2(nb_sum) - log2(Berr) - log2(polyDegree)) / 2)`, with exact
logarithms.
-/
def nbrBit (modulusBitsize eltNbr noiseUB polyDegree : ℕ) : ℤ :=
  ((modulusBitsize : ℤ) - 1 - Nat.clog 2 (eltNbr * noiseUB * polyDegree)) / 2

/-- Choose the bits absorbed by a coefficient for queries of the given length. -/
def setandgetAbsBitPerCiphertext (eltNbr : ℕ) : NFLLWE × ℤ :=
  let nbrBit := nbrBit lwe.nfl.getmodulusBitsize eltNbr lwe.noiseUB lwe.nfl.polyDegree
  (recomputeNoiseAmplifiers { lwe with absPerCoordinateBitsize := nbrBit }, nbrBit)

/-- The integer computation agrees with the formula on real logarithms. -/
theorem nbrBit_eq_floor {modulusBitsize eltNbr noiseUB polyDegree : ℕ} (eltNbr_pos : 0 < eltNbr)
    (noiseUB_pos : 0 < noiseUB) (polyDegree_pos : 0 < polyDegree) :
    nbrBit modulusBitsize eltNbr noiseUB polyDegree =
      ⌊((modulusBitsize : ℝ) - 1 - Real.logb 2 eltNbr - Real.logb 2 noiseUB -
        Real.logb 2 polyDegree) / 2⌋ := by
  have product : Real.logb 2 eltNbr + Real.logb 2 noiseUB + Real.logb 2 polyDegree =
      Real.logb 2 ((eltNbr * noiseUB * polyDegree : ℕ) : ℝ) := by
    push_cast
    rw [Real.logb_mul (by positivity) (by positivity), Real.logb_mul (by positivity) (by positivity)]
  have ceiling : ⌈Real.logb 2 ((eltNbr * noiseUB * polyDegree : ℕ) : ℝ)⌉ =
      Nat.clog 2 (eltNbr * noiseUB * polyDegree) := by
    have exact := Real.ceil_logb_natCast (b := 2)
      (r := ((eltNbr * noiseUB * polyDegree : ℕ) : ℝ)) (by positivity)
    rwa [Int.clog_natCast] at exact
  rcases Int.ceil_eq_iff.mp ceiling with ⟨lower, upper⟩
  rw [nbrBit, eq_comm, Int.floor_eq_iff]
  have quotient : 2 * (((modulusBitsize : ℤ) - 1 -
      Nat.clog 2 (eltNbr * noiseUB * polyDegree)) / 2) ≤
        (modulusBitsize : ℤ) - 1 - Nat.clog 2 (eltNbr * noiseUB * polyDegree) := by
    omega
  have remainder : (modulusBitsize : ℤ) - 1 - Nat.clog 2 (eltNbr * noiseUB * polyDegree) ≤
      2 * (((modulusBitsize : ℤ) - 1 -
        Nat.clog 2 (eltNbr * noiseUB * polyDegree)) / 2) + 1 := by
    omega
  rify at quotient remainder lower upper product
  constructor
  · linarith
  · linarith

/-! ## The amplifiers -/

/-- The integer reduced by the loop is null in every iteration. -/
theorem foldl_recomputeNoiseAmplifier (indices : List (Fin lwe.nfl.nbModuli))
    {state : AmplifierState lwe.nfl.nbModuli} (null : state.tmpz1 = 0)
    {cm : Fin lwe.nfl.nbModuli}
    (settled : cm ∈ indices ∨ state.abitMod cm = 0 ∧ state.abitModShoup cm = 0) :
    (indices.foldl lwe.recomputeNoiseAmplifier state).abitMod cm = 0 ∧
      (indices.foldl lwe.recomputeNoiseAmplifier state).abitModShoup cm = 0 := by
  induction indices generalizing state with
  | nil => simpa using settled
  | cons index rest ih =>
      rw [List.foldl_cons]
      apply ih
      · simp [recomputeNoiseAmplifier, null]
      · by_cases here : cm = index
        · right
          simp [recomputeNoiseAmplifier, null, here, shoupQuotient]
        · rcases settled with mem | done
          · left
            simpa [here] using mem
          · right
            simpa [recomputeNoiseAmplifier, here] using done

@[simp]
theorem recomputeNoiseAmplifiers_abitMod (cm : Fin lwe.nfl.nbModuli) :
    lwe.recomputeNoiseAmplifiers.abitMod cm = 0 :=
  (lwe.foldl_recomputeNoiseAmplifier (List.finRange lwe.nfl.nbModuli) rfl
    (Or.inl (List.mem_finRange cm))).1

@[simp]
theorem recomputeNoiseAmplifiers_abitModShoup (cm : Fin lwe.nfl.nbModuli) :
    lwe.recomputeNoiseAmplifiers.abitModShoup cm = 0 :=
  (lwe.foldl_recomputeNoiseAmplifier (List.finRange lwe.nfl.nbModuli) rfl
    (Or.inl (List.mem_finRange cm))).2

end NFLLWE

end Xpir
