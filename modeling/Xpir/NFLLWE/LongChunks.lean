import Xpir.NFLLWE.Parameters
import Xpir.NFLlib.Bitsplitter

/-!
# Long coefficients

A coefficient of more than 56 bits is imported in parts of 56 bits. For each modulus, the
residues of the parts are added to a word of 64 bits, and the sum is never reduced. As the
moduli lie just below `2 ^ 61`, a word holds the sum of eight residues, so coefficients of
up to 448 bits are imported exactly.

With fifteen moduli or more, `setandgetAbsBitPerCiphertext` may choose to absorb more bits
than that. Then there always are data for which a sum overflows
(`reducesExactly_iff`).
-/

namespace Xpir

open Finset

namespace PolyShape

variable (poly : PolyShape)

/-- The parts of the chunks, of 56 bits each and of what is left for the last one. -/
def HoldsParts (bitsPerChunk : ℕ) (tmpdata : ℕ → ℕ) : Prop :=
  ∀ k, ∀ j < subchunkCount 56 bitsPerChunk,
    tmpdata (k * subchunkCount 56 bitsPerChunk + j) < 2 ^ subchunkSize 56 bitsPerChunk j

/-- No sum overflows, and each chunk is found in its place, reduced by each modulus. -/
structure ReducesExactly (bitsPerChunk totalNbChunks : ℕ) (tmpdata : ℕ → ℕ) : Prop where
  sum_lt : ∀ k < totalNbChunks, ∀ cm < poly.nbModuli,
    crtSum tmpdata (subchunkCount 56 bitsPerChunk) k (moduli cm) < 2 ^ 64
  result : ∃ fuel outdata, poly.internalLongIntegersToCRT fuel tmpdata
      (subchunkCount 56 bitsPerChunk) totalNbChunks = some outdata ∧
    ∀ k < totalNbChunks, ∀ cm < poly.nbModuli, outdata (poly.cell k cm) ≡
      concatenate 56 (fun j => tmpdata (k * subchunkCount 56 bitsPerChunk + j))
        (subchunkCount 56 bitsPerChunk) [MOD moduli cm]

section Sums

variable {poly} {bitsPerChunk totalNbChunks : ℕ}

theorem reducesExactly_of_le (chunk_le : bitsPerChunk ≤ 448) (total_lt : totalNbChunks < 2 ^ 32)
    (tmpdata : ℕ → ℕ) : poly.ReducesExactly bitsPerChunk totalNbChunks tmpdata := by
  have few : subchunkCount 56 bitsPerChunk ≤ 8 := by
    rw [subchunkCount]
    omega
  refine ⟨fun k _ cm cm_lt => crtSum_lt tmpdata few k cm_lt, ?_⟩
  rcases poly.internalLongIntegersToCRT_eq tmpdata (totalNbChunks + 1) total_lt
    (Nat.lt_succ_self _) with ⟨outdata, runs, values⟩
  refine ⟨_, outdata, runs, ?_⟩
  intro k k_lt cm cm_lt
  rw [values k cm cm_lt, if_pos k_lt, Nat.mod_eq_of_lt (crtSum_lt tmpdata few k cm_lt)]
  exact crtSum_modEq _ _ _ _

/-- The parts of one long chunk, with large residues for the fourteenth modulus. -/
def overflowingParts : List ℕ :=
  [72057594037927935, 17803709406731101, 33455570197927555, 64942170842601586,
    40612713626738867, 47547773686621667, 68861705222841047, 20990249186688896, 1]

def overflowing (index : ℕ) : ℕ := overflowingParts.getD index 0

theorem overflowing_sum : 2 ^ 64 ≤ ∑ j ∈ range 9,
    NFLlib.mulmod (overflowing j) (multiplier (moduli 13) j) (moduli 13) := by
  decide +kernel

theorem overflowing_lt (index : ℕ) : overflowing index < 2 ^ 56 := by
  rcases Nat.lt_or_ge index 9 with inside | beyond
  · revert index
    decide +kernel
  · rw [overflowing, List.getD_eq_default _ _ beyond]
    exact Nat.two_pow_pos 56

theorem overflowing_holdsParts (chunk_gt : 448 < bitsPerChunk) :
    HoldsParts bitsPerChunk overflowing := by
  have count_ge : 9 ≤ subchunkCount 56 bitsPerChunk := by
    rw [subchunkCount]
    omega
  intro k j j_lt
  rw [subchunkSize]
  split
  next => exact overflowing_lt _
  next last =>
    have size_pos : 56 * (subchunkCount 56 bitsPerChunk - 1) < bitsPerChunk :=
      mul_subchunkCount_pred_lt (by decide) (by omega)
    have part_lt : overflowing (k * subchunkCount 56 bitsPerChunk + j) < 2 := by
      have index_ge : 8 ≤ k * subchunkCount 56 bitsPerChunk + j := by omega
      rcases Nat.lt_or_ge 8 (k * subchunkCount 56 bitsPerChunk + j) with beyond | here
      · rw [overflowing, List.getD_eq_default _ _ beyond]
        decide
      · rw [le_antisymm here index_ge]
        decide
    calc overflowing (k * subchunkCount 56 bitsPerChunk + j) < 2 ^ 1 := part_lt
      _ ≤ 2 ^ (bitsPerChunk - 56 * (subchunkCount 56 bitsPerChunk - 1)) :=
          Nat.pow_le_pow_right (by decide) (by omega)

/-- Long chunks are counted in 32 bits, and nine parts may overflow. -/
theorem le_of_reducesExactly (total_pos : 0 < totalNbChunks)
    (several : 448 < bitsPerChunk → 13 < poly.nbModuli)
    (exact : ∀ tmpdata, HoldsParts bitsPerChunk tmpdata →
      poly.ReducesExactly bitsPerChunk totalNbChunks tmpdata) :
    bitsPerChunk ≤ 448 ∧ totalNbChunks < 2 ^ 32 := by
  constructor
  · by_contra long
    rw [not_le] at long
    have count_ge : 9 ≤ subchunkCount 56 bitsPerChunk := by
      rw [subchunkCount]
      omega
    have sum_lt := (exact overflowing (overflowing_holdsParts long)).sum_lt 0 total_pos 13
      (several long)
    have first : ∑ j ∈ range 9, NFLlib.mulmod (overflowing j) (multiplier (moduli 13) j)
        (moduli 13) ≤ crtSum overflowing (subchunkCount 56 bitsPerChunk) 0 (moduli 13) := by
      rw [crtSum]
      simp only [Nat.zero_mul, Nat.zero_add]
      exact sum_le_sum_of_subset (range_subset_range.mpr count_ge)
    exact absurd (overflowing_sum.trans first) (not_le.mpr sum_lt)
  · by_contra exceeds
    have holds : HoldsParts bitsPerChunk fun _ => 0 := fun _ _ _ => Nat.two_pow_pos _
    rcases (exact _ holds).result with ⟨fuel, outdata, runs, _⟩
    rw [internalLongIntegersToCRT_eq_none (not_lt.mp exceeds)] at runs
    exact absurd runs (by simp)

end Sums

end PolyShape

namespace NFLLWE

open NFLlib

variable (lwe : NFLLWE)

/-- The shape of the polynomials that data are imported to. -/
def polyShape (nbModuli_pos : 0 < lwe.nfl.nbModuli) : PolyShape where
  polyDegree := lwe.nfl.polyDegree
  nbModuli := lwe.nfl.nbModuli
  polyDegree_pos := Nat.two_pow_pos _
  polyDegree_le := Nat.pow_le_pow_right (by decide) lwe.nfl.levels_le
  nbModuli_pos := nbModuli_pos
  nbModuli_le := lwe.isStandard.choose

theorem mul_mod_div_le {factor : ℕ} (number modulus : ℕ) (factor_pos : 0 < factor) :
    factor * number % modulus / factor ≤ number := by
  calc factor * number % modulus / factor ≤ factor * number / factor :=
        Nat.div_le_div_right (Nat.mod_le _ _)
    _ = number := Nat.mul_div_cancel_left _ factor_pos

/-- The bits of a coefficient are half of those of the moduli, and less. -/
theorem aBits_setandgetAbsBitPerCiphertext_le (eltNbr : ℕ) :
    2 * (lwe.setandgetAbsBitPerCiphertext eltNbr).1.aBits ≤ 60 * lwe.nfl.nbModuli - 1 := by
  have absorbs : (lwe.setandgetAbsBitPerCiphertext eltNbr).1.absPerCoordinateBitsize =
      nbrBit lwe.nfl.getmodulusBitsize eltNbr lwe.noiseUB lwe.nfl.polyDegree := rfl
  have degree : (lwe.setandgetAbsBitPerCiphertext eltNbr).1.nfl.polyDegree =
      lwe.nfl.polyDegree := rfl
  have bits_le : 2 * (nbrBit lwe.nfl.getmodulusBitsize eltNbr lwe.noiseUB
      lwe.nfl.polyDegree).toNat ≤ 60 * lwe.nfl.nbModuli - 1 := by
    rw [nbrBit, NFLlib.getmodulusBitsize, NFLlib.kModulusBitsize]
    omega
  rw [aBits, getAbsorptionBitsize, absorbs, degree]
  split
  next => simp
  next =>
    have quotient_le := mul_mod_div_le (nbrBit lwe.nfl.getmodulusBitsize eltNbr lwe.noiseUB
      lwe.nfl.polyDegree).toNat (2 ^ 32) (Nat.two_pow_pos lwe.nfl.levels)
    exact (Nat.mul_le_mul_left 2 quotient_le).trans bits_le

/--
For the absorption that is chosen for queries of some length, all data of some number of
chunks are reduced exactly if and only if a coefficient has at most 448 bits and the
number of chunks fits in 32 bits, or there are no data.
-/
theorem reducesExactly_iff (nbModuli_pos : 0 < lwe.nfl.nbModuli) (eltNbr totalNbChunks : ℕ) :
    (∀ tmpdata, PolyShape.HoldsParts (lwe.setandgetAbsBitPerCiphertext eltNbr).1.aBits tmpdata →
      (lwe.polyShape nbModuli_pos).ReducesExactly
        (lwe.setandgetAbsBitPerCiphertext eltNbr).1.aBits totalNbChunks tmpdata) ↔
      totalNbChunks = 0 ∨
        (lwe.setandgetAbsBitPerCiphertext eltNbr).1.aBits ≤ 448 ∧ totalNbChunks < 2 ^ 32 := by
  have absorbed_le := lwe.aBits_setandgetAbsBitPerCiphertext_le eltNbr
  constructor
  · intro exact
    rcases Nat.eq_zero_or_pos totalNbChunks with none | total_pos
    · exact Or.inl none
    · refine Or.inr (PolyShape.le_of_reducesExactly total_pos ?_ exact)
      intro long
      change 13 < lwe.nfl.nbModuli
      omega
  · rintro (rfl | ⟨chunk_le, total_lt⟩) tmpdata _
    · refine ⟨fun k k_lt => absurd k_lt (Nat.not_lt_zero k), 1, fun _ => 0, rfl, ?_⟩
      exact fun k k_lt => absurd k_lt (Nat.not_lt_zero k)
    · exact PolyShape.reducesExactly_of_le chunk_le total_lt tmpdata

/-- A key of some number of moduli, for polynomials of degree 4096. -/
def keyOfModuli (nbModuli : ℕ) (nbModuli_le : nbModuli ≤ kMaxNbModuli) : NFLLWE :=
  recomputeNoiseAmplifiers
    { nfl := standard 12 nbModuli (by decide) nbModuli_le
      noiseUB := noiseUpperBound 80
      absPerCoordinateBitsize := -1
      secretKey := (standard 12 nbModuli (by decide) nbModuli_le).uniformRandomPoly fun _ _ => 1
      abitMod := fun _ => 0
      abitModShoup := fun _ => 0
      isStandard := standard_isStandard (by decide) nbModuli_le
      secretKey_lt :=
        (standard 12 nbModuli (by decide) nbModuli_le).reduced_uniformRandomPoly _ }

/-- With four moduli, 100000 chunks of 109 bits are reduced exactly. -/
theorem reducesExactly_iff_four :
    ((keyOfModuli 4 (by decide)).polyShape (by decide)).ReducesExactly
      ((keyOfModuli 4 (by decide)).setandgetAbsBitPerCiphertext 1).1.aBits 100000 fun _ => 0 :=
  (reducesExactly_iff (keyOfModuli 4 (by decide)) (by decide) 1 100000).mpr
    (Or.inr ⟨by decide +kernel, by decide⟩) (fun _ => 0) fun _ _ _ => Nat.two_pow_pos _

/-- With sixteen moduli, 469 bits are absorbed, which is too many even for a single chunk. -/
theorem not_reducesExactly_sixteen :
    setNewParameters 80 (show 12 ≤ 13 by decide) 960 (-1) (fun _ _ _ => 1) =
        some (keyOfModuli 16 (by decide)) ∧
      ((keyOfModuli 16 (by decide)).setandgetAbsBitPerCiphertext 1).1.aBits = 469 ∧
      PolyShape.HoldsParts 469 PolyShape.overflowing ∧
      ¬ ((keyOfModuli 16 (by decide)).polyShape (by decide)).ReducesExactly 469 1
        PolyShape.overflowing := by
  refine ⟨rfl, by decide +kernel, PolyShape.overflowing_holdsParts (by decide), ?_⟩
  intro exact
  have sum_lt := exact.sum_lt 0 (by decide) 13 (by decide)
  revert sum_lt
  decide +kernel

end NFLLWE

end Xpir
