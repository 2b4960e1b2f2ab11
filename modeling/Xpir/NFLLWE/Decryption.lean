import Mathlib.Data.List.GetD
import Mathlib.Data.Nat.Digits.Lemmas
import Xpir.Foundations.Crt
import Xpir.NFLLWE.Encryption

/-!
# Decryption

This file contains the internal decryption of a ciphertext: the secret is removed,
the coefficients are lifted to integers modulo the product of the moduli, and their
low bits are kept.

Coefficients above half the product stand for negative integers. They are shifted
by a constant that makes them congruent to these integers modulo a power of two, so
that no negative integer is ever formed. `dec_uint64` and `dec_uint32` give the result
for one modulus and for several.
-/

namespace Xpir

open NFLlib

namespace NFLlib

variable (nfl : NFLlib)

/-- The product of the moduli. -/
def moduliProduct : ℕ :=
  ∏ cm, (nfl.moduli cm).p

/-- A coefficient lifted to an integer modulo the product of the moduli. -/
def poly2mpz (op : Poly nfl.nbModuli) (i : ℕ) : ℕ :=
  liftResidues (fun cm => (nfl.moduli cm).p) (fun cm => op cm i)

section Standard

variable {nfl} (isStandard : nfl.Standard)

include isStandard

theorem Standard.p_lt (cm : Fin nfl.nbModuli) : (nfl.moduli cm).p < 2 ^ 61 := by
  rcases isStandard with ⟨inRange, moduli_eq⟩
  rw [moduli_eq cm]
  exact P64_lt (cm.castLE inRange)

theorem Standard.p_gt (cm : Fin nfl.nbModuli) : 2 ^ 61 - 2 ^ 23 < (nfl.moduli cm).p := by
  rcases isStandard with ⟨inRange, moduli_eq⟩
  rw [moduli_eq cm]
  exact P64_gt (cm.castLE inRange)

theorem Standard.coprime (left right : Fin nfl.nbModuli) (distinct : left ≠ right) :
    ((nfl.moduli left).p).Coprime (nfl.moduli right).p := by
  rcases isStandard with ⟨inRange, moduli_eq⟩
  rw [moduli_eq left, moduli_eq right]
  have images : left.castLE inRange ≠ right.castLE inRange :=
    fun same => distinct (Fin.castLE_injective inRange same)
  exact P64_coprime images

theorem Standard.moduliProduct_le : nfl.moduliProduct ≤ 2 ^ (61 * nfl.nbModuli) := by
  have bound := Finset.prod_le_pow_card Finset.univ (fun cm => (nfl.moduli cm).p) (2 ^ 61)
    (fun cm _ => (isStandard.p_lt cm).le)
  rwa [Finset.card_univ, Fintype.card_fin, ← pow_mul] at bound

theorem Standard.moduliProduct_ge : (2 ^ 61 - 2 ^ 23) ^ nfl.nbModuli ≤ nfl.moduliProduct := by
  have bound := Finset.pow_card_le_prod Finset.univ (fun cm => (nfl.moduli cm).p) (2 ^ 61 - 2 ^ 23)
    (fun cm _ => (isStandard.p_gt cm).le)
  rwa [Finset.card_univ, Fintype.card_fin] at bound

end Standard

end NFLlib

/-! ## Integers of arbitrary size -/

/-- Number of 64-bit limbs of an integer. -/
def mpzSize (u : ℕ) : ℕ :=
  (Nat.digits (2 ^ 64) u).length

/-- `mpz_cmp`: the difference of the numbers of limbs, or the sign of the difference. -/
def mpzCmp (u v : ℕ) : ℤ :=
  if mpzSize u ≠ mpzSize v then (mpzSize u : ℤ) - mpzSize v
  else if v < u then 1
  else if u < v then -1
  else 0

/-- `mpz_export` to 32-bit words, the least significant first, without leading zeros. -/
def mpzExport32 (buffer : ℕ → ℕ) (start value : ℕ) : ℕ → ℕ :=
  let limbs := Nat.digits (2 ^ 32) value
  fun cell =>
    if start ≤ cell ∧ cell - start < limbs.length then limbs.getD (cell - start) 0
    else buffer cell

theorem mpzSize_le_iff (u size : ℕ) : mpzSize u ≤ size ↔ u < (2 ^ 64) ^ size :=
  Nat.digits_length_le_iff (by omega) u

theorem mpzSize_mono {u v : ℕ} (ordered : u ≤ v) : mpzSize u ≤ mpzSize v := by
  rw [mpzSize_le_iff]
  exact lt_of_le_of_lt ordered ((mpzSize_le_iff v _).mp le_rfl)

/-- Integers that differ by a factor below two have nearly as many limbs. -/
theorem mpzCmp_eq_one_iff {u v : ℕ} (u_lt : u < 2 * v) : mpzCmp u v = 1 ↔ v < u := by
  have next : mpzSize u ≤ mpzSize v + 1 := by
    have v_lt := (mpzSize_le_iff v _).mp le_rfl
    rw [mpzSize_le_iff, pow_succ]
    omega
  rcases Nat.lt_or_ge v u with greater | smaller
  · have := mpzSize_mono greater.le
    simp only [mpzCmp, greater, if_true, iff_true]
    split <;> omega
  · have := mpzSize_mono smaller
    simp only [mpzCmp, Nat.not_lt.mpr smaller, if_false, iff_false]
    split
    · omega
    · split <;> omega

/-- Successive exports of values of at most `count` words do not overlap. -/
theorem forLoop_mpzExport32 {size count : ℕ} {values : ℕ → ℕ}
    (values_lt : ∀ i < size, values i < 2 ^ (32 * count)) {i j : ℕ} (i_lt : i < size)
    (j_lt : j < count) :
    forLoop size (fun i buffer => mpzExport32 buffer (i * count) (values i)) (fun _ => 0)
      (i * count + j) = values i / 2 ^ (32 * j) % 2 ^ 32 := by
  have exported : (∀ i < size, ∀ j < count,
      forLoop size (fun i buffer => mpzExport32 buffer (i * count) (values i)) (fun _ => 0)
        (i * count + j) = values i / 2 ^ (32 * j) % 2 ^ 32) ∧ ∀ cell, size * count ≤ cell →
      forLoop size (fun i buffer => mpzExport32 buffer (i * count) (values i)) (fun _ => 0)
        cell = 0 := by
    refine forLoop_induction _ _ _ (fun done (buffer : ℕ → ℕ) => (∀ i < done, ∀ j < count,
      buffer (i * count + j) = values i / 2 ^ (32 * j) % 2 ^ 32) ∧ ∀ cell, done * count ≤ cell →
        buffer cell = 0) ?_ ?_
    · simp
    · rintro done buffer done_lt ⟨written, blank⟩
      have limbs_le : (Nat.digits (2 ^ 32) (values done)).length ≤ count := by
        rw [Nat.digits_length_le_iff (by omega), ← pow_mul]
        exact values_lt done done_lt
      refine ⟨?_, ?_⟩
      · intro i i_le j j_lt
        rcases Nat.eq_or_lt_of_le (Nat.le_of_lt_succ i_le) with rfl | earlier
        · have digit := Nat.getD_digits (values i) j (show 2 ≤ 2 ^ 32 by omega)
          simp only [mpzExport32, Nat.add_sub_cancel_left, Nat.le_add_right, true_and]
          rw [pow_mul, ← digit]
          by_cases inside : j < (Nat.digits (2 ^ 32) (values i)).length
          · rw [if_pos inside]
          · rw [if_neg inside, blank _ (by omega), List.getD_eq_default _ _ (by omega)]
        · have before : (i + 1) * count ≤ done * count := Nat.mul_le_mul_right _ earlier
          rw [Nat.add_mul, one_mul] at before
          simp only [mpzExport32]
          rw [if_neg (by omega)]
          exact written i earlier j j_lt
      · intro cell cell_ge
        rw [Nat.add_mul, one_mul] at cell_ge
        simp only [mpzExport32]
        rw [if_neg (by omega)]
        exact blank cell (by omega)
  exact exported.1 i i_lt j j_lt

/-! ## Decryption of a ciphertext -/

/-- The array decryption leaves: words of 64 bits, or of 32 bits. -/
inductive ClearData where
  | uint64 (words : ℕ → ℕ)
  | uint32 (words : ℕ → ℕ)

namespace NFLLWE

variable (lwe : NFLLWE)

/-- The amplified noise plus the message, in the transform domain. -/
def decPhase (cipher : Poly lwe.nfl.nbModuli × Poly lwe.nfl.nbModuli) : Poly lwe.nfl.nbModuli :=
  fun cm =>
    let p := (lwe.nfl.moduli cm).p
    forLoop lwe.nfl.polyDegree (fun i m => Function.update m i
      (submod (cipher.2 cm i) (mulandaddShoup 0 (cipher.1 cm i) (lwe.secretKey cm i)
        (shoupQuotient (lwe.secretKey cm i) p) p) p)) (fun _ => 0)

/-- The low bits of the signed integer a single residue stands for. -/
def maskWord (p word : ℕ) : ℕ :=
  let magicConst := 2 ^ 61 - p
  let bitmask := 2 ^ lwe.aBits - 1
  if p / 2 < word then (word + magicConst) &&& bitmask else word &&& bitmask

/-- The low bits of the signed integer a lifted coefficient stands for. -/
def maskInteger (coefficient : ℕ) : ℕ :=
  let magicConst := 2 ^ ((kModulusBitsize + 1) * lwe.nfl.nbModuli) - lwe.nfl.moduliProduct
  let bitmask := 2 ^ lwe.aBits - 1
  if mpzCmp (coefficient * 2) lwe.nfl.moduliProduct = 1 then (coefficient + magicConst) &&& bitmask
  else coefficient &&& bitmask

/-- Number of 32-bit words exported for a coefficient. -/
def combien : ℕ :=
  (lwe.aBits + 31) / 32

/-- The decryption of a ciphertext. -/
def dec (cipher : Poly lwe.nfl.nbModuli × Poly lwe.nfl.nbModuli) : ClearData :=
  let m := lwe.nfl.invnttAndPowInvPhi (lwe.decPhase cipher)
  if single : lwe.nfl.nbModuli = 1 then
    let first : Fin lwe.nfl.nbModuli := ⟨0, by omega⟩
    .uint64 (forLoop lwe.nfl.polyDegree (fun i m => Function.update m i
      (lwe.maskWord (lwe.nfl.moduli first).p (m i))) (m first))
  else
    .uint32 (forLoop lwe.nfl.polyDegree (fun i words =>
      mpzExport32 words (i * lwe.combien) (lwe.maskInteger (lwe.nfl.poly2mpz m i))) (fun _ => 0))

section Correctness

variable {lwe} {cipher : Poly lwe.nfl.nbModuli × Poly lwe.nfl.nbModuli} {v : ℕ → ℤ}

/-- Decryption reads the words of the polynomials only. -/
theorem decPhase_congr {other : Poly lwe.nfl.nbModuli × Poly lwe.nfl.nbModuli}
    (same : ∀ cm, ∀ cell < lwe.nfl.polyDegree,
      cipher.1 cm cell = other.1 cm cell ∧ cipher.2 cm cell = other.2 cm cell) :
    lwe.decPhase cipher = lwe.decPhase other := by
  funext cm
  rw [decPhase, decPhase]
  apply forLoop_congr
  intro i array i_lt
  rcases same cm i i_lt with ⟨same_a, same_b⟩
  rw [same_a, same_b]

/-- The words decryption transforms back hold the phase. -/
theorem decPhase_spec {cm : Fin lwe.nfl.nbModuli} {cell : ℕ} (cell_lt : cell < lwe.nfl.polyDegree)
    (a_lt : cipher.1 cm cell < (lwe.nfl.moduli cm).p)
    (b_lt : cipher.2 cm cell < (lwe.nfl.moduli cm).p) :
    lwe.decPhase cipher cm cell < (lwe.nfl.moduli cm).p ∧
      (lwe.decPhase cipher cm cell : ZMod (lwe.nfl.moduli cm).p) = lwe.phase cipher cm cell := by
  have p_lt := (lwe.nfl.moduli cm).p_lt
  have secret_lt := lwe.secretKey_lt cm cell cell_lt
  have added := shoupDifference_lt p_lt (show cipher.1 cm cell < 2 ^ 64 by omega) secret_lt
  simp only [decPhase]
  rw [forLoop_update_apply lwe.nfl.polyDegree (fun i _ => submod (cipher.2 cm i)
    (mulandaddShoup 0 (cipher.1 cm i) (lwe.secretKey cm i)
      (shoupQuotient (lwe.secretKey cm i) (lwe.nfl.moduli cm).p) (lwe.nfl.moduli cm).p)
        (lwe.nfl.moduli cm).p), if_pos cell_lt]
  refine ⟨submod_lt p_lt b_lt, ?_⟩
  rw [cast_submod p_lt (lwe.nfl.moduli cm).p_pos b_lt,
    cast_mulandaddShoup p_lt (by omega) secret_lt (by omega), Nat.cast_zero, add_zero, phase]

/-- A reduced ciphertext whose phase stands for an integer polynomial. -/
structure Encrypts (lwe : NFLLWE) (cipher : Poly lwe.nfl.nbModuli × Poly lwe.nfl.nbModuli)
    (v : ℕ → ℤ) : Prop where
  reduced_a : lwe.nfl.Reduced cipher.1
  reduced_b : lwe.nfl.Reduced cipher.2
  phase_eq : ∀ cm, ∀ cell < lwe.nfl.polyDegree, lwe.phase cipher cm cell =
    lwe.transformOf cm (fun i => (v i : ZMod (lwe.nfl.moduli cm).p)) cell

theorem Encrypts.coefficient (encrypts : lwe.Encrypts cipher v) (cm : Fin lwe.nfl.nbModuli)
    {i : ℕ} (i_lt : i < lwe.nfl.polyDegree) :
    lwe.nfl.invnttAndPowInvPhi (lwe.decPhase cipher) cm i < (lwe.nfl.moduli cm).p ∧
      (lwe.nfl.invnttAndPowInvPhi (lwe.decPhase cipher) cm i : ZMod (lwe.nfl.moduli cm).p) =
        (v i : ZMod (lwe.nfl.moduli cm).p) := by
  apply invnttAndPowInvPhi_spec _ i_lt
  intro cell cell_lt
  rcases decPhase_spec cell_lt (encrypts.reduced_a cm cell cell_lt)
    (encrypts.reduced_b cm cell cell_lt) with ⟨reduced, residue⟩
  rw [residue, encrypts.phase_eq cm cell cell_lt]
  exact ⟨by omega, rfl⟩

/-- The coefficients lift to the integers modulo the product. -/
theorem Encrypts.lifted (encrypts : lwe.Encrypts cipher v) {i : ℕ}
    (i_lt : i < lwe.nfl.polyDegree) :
    (lwe.nfl.poly2mpz (lwe.nfl.invnttAndPowInvPhi (lwe.decPhase cipher)) i : ℤ) =
      v i % lwe.nfl.moduliProduct := by
  apply liftResidues_eq lwe.isStandard.coprime
  intro cm
  exact (encrypts.coefficient cm i_lt).2

theorem absorbed_le (absorbs : 2 ^ lwe.aBits ≤ lwe.nfl.moduliProduct) :
    lwe.aBits ≤ 61 * lwe.nfl.nbModuli :=
  (Nat.pow_le_pow_iff_right (by omega)).mp
    (absorbs.trans lwe.isStandard.moduliProduct_le)

/-- With one modulus, decryption gives the low bits of each coefficient. -/
theorem dec_uint64 (single : lwe.nfl.nbModuli = 1) (encrypts : lwe.Encrypts cipher v)
    (absorbs : 2 ^ lwe.aBits ≤ lwe.nfl.moduliProduct)
    (small : ∀ i < lwe.nfl.polyDegree, 2 * |v i| < lwe.nfl.moduliProduct) :
    ∃ words, lwe.dec cipher = .uint64 words ∧
      ∀ i < lwe.nfl.polyDegree, (words i : ℤ) = v i % 2 ^ lwe.aBits := by
  have product : lwe.nfl.moduliProduct = (lwe.nfl.moduli ⟨0, by omega⟩).p := by
    have only : (Finset.univ : Finset (Fin lwe.nfl.nbModuli)) = {⟨0, by omega⟩} := by
      ext cm
      have := cm.isLt
      simp only [Finset.mem_univ, Finset.mem_singleton, true_iff, Fin.ext_iff]
      omega
    rw [moduliProduct, only, Finset.prod_singleton]
  have absorbed_le : lwe.aBits ≤ 61 := by
    have := absorbed_le absorbs
    omega
  have p_lt := lwe.isStandard.p_lt ⟨0, by omega⟩
  refine ⟨_, by rw [dec, dif_pos single], ?_⟩
  intro i i_lt
  rcases encrypts.coefficient ⟨0, by omega⟩ i_lt with ⟨reduced, residue⟩
  rw [forLoop_update_apply lwe.nfl.polyDegree
    (fun _ => lwe.maskWord (lwe.nfl.moduli ⟨0, by omega⟩).p), if_pos i_lt]
  generalize lwe.nfl.invnttAndPowInvPhi (lwe.decPhase cipher) ⟨0, by omega⟩ i = word at *
  have lifted : (word : ℤ) = v i % (lwe.nfl.moduli ⟨0, by omega⟩).p := by
    rw [← Int.cast_natCast, ZMod.intCast_eq_intCast_iff'] at residue
    rw [← residue, ← Int.natCast_mod, Nat.mod_eq_of_lt reduced]
  rw [product] at small
  rw [← signedLow_eq p_lt.le absorbed_le lifted (small i i_lt)]
  simp only [maskWord, Nat.and_two_pow_sub_one_eq_mod]
  have above : (lwe.nfl.moduli ⟨0, by omega⟩).p / 2 < word ↔
      (lwe.nfl.moduli ⟨0, by omega⟩).p < 2 * word := by omega
  simp only [above]
  split <;> rfl

/-- With several moduli, it gives them as words of 32 bits. -/
theorem dec_uint32 (several : lwe.nfl.nbModuli ≠ 1) (encrypts : lwe.Encrypts cipher v)
    (absorbs : 2 ^ lwe.aBits ≤ lwe.nfl.moduliProduct)
    (small : ∀ i < lwe.nfl.polyDegree, 2 * |v i| < lwe.nfl.moduliProduct) :
    ∃ words, lwe.dec cipher = .uint32 words ∧
      ∀ i < lwe.nfl.polyDegree, ∀ j < lwe.combien,
        (words (i * lwe.combien + j) : ℤ) = v i % 2 ^ lwe.aBits / 2 ^ (32 * j) % 2 ^ 32 := by
  have masked : ∀ i < lwe.nfl.polyDegree,
      (lwe.maskInteger (lwe.nfl.poly2mpz (lwe.nfl.invnttAndPowInvPhi (lwe.decPhase cipher)) i) : ℤ) =
        v i % 2 ^ lwe.aBits := by
    intro i i_lt
    have lifted := encrypts.lifted i_lt
    generalize lwe.nfl.poly2mpz (lwe.nfl.invnttAndPowInvPhi (lwe.decPhase cipher)) i =
      coefficient at lifted ⊢
    have reduced : coefficient < lwe.nfl.moduliProduct := by
      have := Int.emod_lt_of_pos (v i)
        (lt_of_le_of_lt (by positivity) (small i i_lt))
      omega
    have above : mpzCmp (coefficient * 2) lwe.nfl.moduliProduct = 1 ↔
        lwe.nfl.moduliProduct < 2 * coefficient := by
      rw [mpzCmp_eq_one_iff (by omega), mul_comm]
    rw [← signedLow_eq lwe.isStandard.moduliProduct_le (absorbed_le absorbs) lifted (small i i_lt)]
    simp only [maskInteger, above, Nat.and_two_pow_sub_one_eq_mod, kModulusBitsize]
    split <;> rfl
  have masked_lt : ∀ i < lwe.nfl.polyDegree, lwe.maskInteger (lwe.nfl.poly2mpz
      (lwe.nfl.invnttAndPowInvPhi (lwe.decPhase cipher)) i) < 2 ^ (32 * lwe.combien) := by
    intro i i_lt
    have low := Int.emod_lt_of_pos (v i) (show (0 : ℤ) < 2 ^ lwe.aBits by positivity)
    rw [← masked i i_lt] at low
    have fits : 2 ^ lwe.aBits ≤ 2 ^ (32 * lwe.combien) := by
      apply Nat.pow_le_pow_right (by omega)
      rw [combien]
      omega
    exact lt_of_lt_of_le (by exact_mod_cast low) fits
  refine ⟨_, by rw [dec, dif_neg several], ?_⟩
  intro i i_lt j j_lt
  rw [forLoop_mpzExport32 masked_lt i_lt j_lt, ← masked i i_lt]
  push_cast
  rfl

/--
Decryption gives the non-negative residue modulo `2 ^ aBits` of every coefficient,
provided that all coefficients lie in the noise range.
-/
theorem dec_correct (encrypts : lwe.Encrypts cipher v)
    (absorbs : 2 ^ lwe.aBits ≤ lwe.nfl.moduliProduct)
    (small : ∀ i < lwe.nfl.polyDegree, 2 * |v i| < lwe.nfl.moduliProduct) :
    (lwe.nfl.nbModuli = 1 → ∃ words, lwe.dec cipher = .uint64 words ∧
      ∀ i < lwe.nfl.polyDegree, (words i : ℤ) = v i % 2 ^ lwe.aBits) ∧
    (1 < lwe.nfl.nbModuli → ∃ words, lwe.dec cipher = .uint32 words ∧
      ∀ i < lwe.nfl.polyDegree, ∀ j < lwe.combien,
        (words (i * lwe.combien + j) : ℤ) = v i % 2 ^ lwe.aBits / 2 ^ (32 * j) % 2 ^ 32) := by
  constructor
  · intro single
    exact dec_uint64 single encrypts absorbs small
  · intro several
    exact dec_uint32 (by omega) encrypts absorbs small

end Correctness

/-- The ciphertext of a constant polynomial whose first component is given. -/
def constantCipher (lwe : NFLLWE) (a : Poly lwe.nfl.nbModuli) (constant : ℤ) :
    Poly lwe.nfl.nbModuli × Poly lwe.nfl.nbModuli :=
  (a, fun cm cell =>
    (a cm cell * lwe.secretKey cm cell + (constant % (lwe.nfl.moduli cm).p).toNat) %
      (lwe.nfl.moduli cm).p)

theorem encrypts_constantCipher (lwe : NFLLWE) {a : Poly lwe.nfl.nbModuli}
    (reduced : lwe.nfl.Reduced a) (constant : ℤ) :
    lwe.Encrypts (lwe.constantCipher a constant) (fun i => if i = 0 then constant else 0) := by
  constructor
  · exact reduced
  · intro cm cell _
    exact Nat.mod_lt _ (lwe.nfl.moduli cm).p_pos
  · intro cm cell _
    have modulus_pos : (0 : ℤ) < (lwe.nfl.moduli cm).p := by
      exact_mod_cast (lwe.nfl.moduli cm).p_pos
    have residue : (((constant % (lwe.nfl.moduli cm).p).toNat : ℕ) : ZMod (lwe.nfl.moduli cm).p) =
        constant := by
      rw [← Int.cast_natCast, Int.toNat_of_nonneg (Int.emod_nonneg _ modulus_pos.ne'),
        ZMod.intCast_mod]
    rw [transformOf, negacyclicTransform_eq_evaluate, evaluate,
      Finset.sum_eq_single_of_mem 0 (Finset.mem_range.mpr (Nat.two_pow_pos _))]
    · simp [phase, constantCipher, residue]
    · intro i _ nonzero
      simp [nonzero]

/-- Parameters with two moduli. -/
def smallPairKey : NFLLWE :=
  recomputeNoiseAmplifiers
    { nfl := standard 9 2 nine_le_thirteen two_le_kMaxNbModuli
      noiseUB := noiseUpperBound 80
      absPerCoordinateBitsize := 40
      secretKey := (standard 9 2 nine_le_thirteen two_le_kMaxNbModuli).uniformRandomPoly
        (fun cm i => 7 * i + cm)
      abitMod := fun _ => 0
      abitModShoup := fun _ => 0
      isStandard := standard_isStandard nine_le_thirteen two_le_kMaxNbModuli
      secretKey_lt :=
        (standard 9 2 nine_le_thirteen two_le_kMaxNbModuli).reduced_uniformRandomPoly _ }

theorem dec_correct_smallPairKey :
    ∃ words, smallPairKey.dec (smallPairKey.constantCipher
        (smallPairKey.nfl.uniformRandomPoly (fun cm i => 3 * i + cm)) (-5)) = .uint32 words ∧
      (words 0 : ℤ) = 2 ^ 32 - 5 ∧ (words 1 : ℤ) = 2 ^ 8 - 1 ∧ (words 2 : ℤ) = 0 := by
  have encrypts := encrypts_constantCipher smallPairKey
    (smallPairKey.nfl.reduced_uniformRandomPoly (fun cm i => 3 * i + cm)) (-5)
  have absorbs : 2 ^ smallPairKey.aBits ≤ smallPairKey.nfl.moduliProduct := by decide +kernel
  have small : ∀ i < smallPairKey.nfl.polyDegree,
      2 * |((fun i => if i = 0 then (-5 : ℤ) else 0 : ℕ → ℤ) i)| <
        smallPairKey.nfl.moduliProduct := by
    decide +kernel
  rcases (dec_correct encrypts absorbs small).2 (by decide) with ⟨words, result, low⟩
  refine ⟨words, result, ?_, ?_, ?_⟩
  · exact (low 0 (by decide) 0 (by decide)).trans (by decide)
  · exact (low 0 (by decide) 1 (by decide)).trans (by decide)
  · exact (low 1 (by decide) 0 (by decide)).trans (by decide)

end NFLLWE

end Xpir
