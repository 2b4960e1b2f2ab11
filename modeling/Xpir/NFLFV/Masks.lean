import Mathlib.Data.Int.ModEq
import Mathlib.Data.Nat.Prime.Int
import Mathlib.Tactic.NormNum.Prime
import Xpir.NFLlib.Serialize

/-!
# Masked differences

A plaintext of the FV scheme has one slot for each coefficient, with values modulo
a prime of 14 bits, of which 12 bits are used. To hide what a difference of slots is
when it is not zero, it is multiplied with a random byte, drawn once for each slot.
Decryption keeps the lowest 12 bits of each slot.
-/

namespace Xpir.NFLFV

/-- The bits that `setandgetAbsBitPerCiphertext` returns, whatever it has computed before. -/
def absorptionBits : ℕ := 12

/-- The mask that the constructor makes of the random words. -/
def mask (rnd : ℕ → ℕ) (i : ℕ) : ℕ := rnd i &&& 255

/-- A slot of the product of the mask and a difference of two slots. -/
def blindedSlot (t mask x r : ℕ) : ℕ := ((mask : ℤ) * ((x : ℤ) - r) % t).toNat

/-- The output of `decrypt` for a plaintext with the given slots. -/
def decrypt (fuel polyDegree : ℕ) (slots : ℕ → ℕ) : Option (ℕ → UInt8) :=
  serializeData32 fuel (fun i => slots i &&& 4095) absorptionBits polyDegree

/-- The bits of the output that belong to a slot. -/
def slotBits (polyDegree : ℕ) (out_data : ℕ → UInt8) (i : ℕ) : ℕ :=
  bitSlice (littleEndian out_data (8 * (absorptionBits * polyDegree / 64 + 1)))
    (absorptionBits * i) absorptionBits

theorem mask_lt (rnd : ℕ → ℕ) (i : ℕ) : mask rnd i < 256 :=
  Nat.and_lt_two_pow (rnd i) (by decide : 255 < 2 ^ 8)

section Decryption

theorem subchunkStart_absorptionBits (i : ℕ) :
    subchunkStart 32 absorptionBits i = absorptionBits * i := by
  have one : subchunkCount 32 absorptionBits = 1 := rfl
  rw [subchunkStart, one, Nat.div_one, Nat.mod_one, Nat.zero_mul, Nat.add_zero, Nat.mul_comm]

/-- The output holds the lowest bits of each slot. -/
theorem decrypt_eq (slots : ℕ → ℕ) {fuel polyDegree : ℕ} (enough : polyDegree < fuel) :
    ∃ out_data, decrypt fuel polyDegree slots = some out_data ∧
      ∀ i < polyDegree, slotBits polyDegree out_data i = slots i % 2 ^ absorptionBits := by
  have bits_pos : 0 < absorptionBits := by decide
  have words_lt : ∀ i, slots i &&& 4095 < 2 ^ absorptionBits := fun i =>
    Nat.and_lt_two_pow (slots i) (by decide)
  have word : ∀ i < polyDegree, bitSlice (concatenate absorptionBits
      (fun i => slots i &&& 4095) polyDegree) (absorptionBits * i) absorptionBits =
        slots i &&& 4095 := by
    intro i i_lt
    rw [bitSlice_concatenate bits_pos words_lt, if_pos i_lt]
  rcases serializeData32_eq fuel bits_pos
    (fun i i_lt => by
      rw [subchunkStart_absorptionBits, (by simp [subchunkSize, subchunkCount, absorptionBits] :
        subchunkSize 32 absorptionBits (i % subchunkCount 32 absorptionBits) = absorptionBits),
        word i i_lt])
    enough with ⟨out_data, runs, bytes⟩
  refine ⟨out_data, runs, ?_⟩
  intro i i_lt
  have value_lt := concatenate_lt words_lt polyDegree
  have output : littleEndian out_data (8 * (absorptionBits * polyDegree / 64 + 1)) =
      concatenate absorptionBits (fun i => slots i &&& 4095) polyDegree := by
    rw [littleEndian, concatenate_congr fun byte _ => bytes byte, concatenate_bitSlice (by decide),
      subchunkStart_absorptionBits, Nat.mod_eq_of_lt value_lt, Nat.mod_eq_of_lt]
    apply value_lt.trans_le
    apply Nat.pow_le_pow_right (by decide)
    rw [absorptionBits]
    omega
  rw [slotBits, output, word i i_lt]
  exact Nat.and_two_pow_sub_one_eq_mod (slots i) 12

end Decryption

section Equality

/-- The bits that are decrypted for a slot of a masked difference are zero exactly on equality. -/
def ZeroOnEquality (t polyDegree : ℕ) (rnd x r : ℕ → ℕ) (i : ℕ) : Prop :=
  ∃ enough, ∀ fuel, enough ≤ fuel → ∃ out_data,
    decrypt fuel polyDegree (fun i => blindedSlot t (mask rnd i) (x i) (r i)) = some out_data ∧
    (slotBits polyDegree out_data i = 0 ↔ x i = r i)

/-- What remains of a masked difference is zero only for few values of it. -/
theorem blindedSlot_mod_iff {t : ℕ} (t_lt : t < 2 ^ 14) (t_pos : 0 < t) (mask x r : ℕ) :
    blindedSlot t mask x r % 2 ^ absorptionBits = 0 ↔
      ∃ c < 4, 4096 * c < t ∧ (mask : ℤ) * ((x : ℤ) - r) ≡ 4096 * c [ZMOD t] := by
  have t_int_pos : (0 : ℤ) < t := by exact_mod_cast t_pos
  have value_nonneg := Int.emod_nonneg ((mask : ℤ) * ((x : ℤ) - r)) t_int_pos.ne'
  have value_lt := Int.emod_lt_of_pos ((mask : ℤ) * ((x : ℤ) - r)) t_int_pos
  have slot_eq : (blindedSlot t mask x r : ℤ) = (mask : ℤ) * ((x : ℤ) - r) % t :=
    Int.toNat_of_nonneg value_nonneg
  have congruent : ∀ c : ℕ, 4096 * c < t → ((mask : ℤ) * ((x : ℤ) - r) ≡ 4096 * c [ZMOD t] ↔
      blindedSlot t mask x r = 4096 * c) := by
    intro c c_lt
    rw [Int.ModEq, ← slot_eq, Int.emod_eq_of_lt (by omega) (by exact_mod_cast c_lt)]
    omega
  rw [absorptionBits]
  constructor
  · intro zero
    refine ⟨blindedSlot t mask x r / 4096, by omega, by omega, ?_⟩
    rw [congruent _ (by omega)]
    omega
  · rintro ⟨c, _, c_lt, same⟩
    rw [congruent c c_lt] at same
    omega

theorem modEq_zero_iff {t mask x r : ℕ} (prime : t.Prime) (mask_lt : mask < t) (x_lt : x < t)
    (r_lt : r < t) : (mask : ℤ) * ((x : ℤ) - r) ≡ 0 [ZMOD t] ↔ mask = 0 ∨ x = r := by
  rw [Int.modEq_zero_iff_dvd, (Nat.prime_iff_prime_int.mp prime).dvd_mul]
  constructor
  · rintro (mask_dvd | difference_dvd)
    · left
      exact Nat.eq_zero_of_dvd_of_lt (by exact_mod_cast mask_dvd) mask_lt
    · right
      have zero := Int.eq_zero_of_abs_lt_dvd difference_dvd (by rw [abs_lt]; omega)
      omega
  · rintro (rfl | rfl)
    · exact Or.inl (dvd_zero _)
    · exact Or.inr (by simp)

/--
The decrypted bits of a slot tell whether the slots are equal exactly if they are
equal, or the mask is not zero and the masked difference is congruent to none of the
multiples of 4096 below the prime.
-/
theorem zeroOnEquality_iff {t polyDegree : ℕ} (prime : t.Prime) (t_gt : 4096 < t)
    (t_lt : t < 2 ^ 14) {rnd x r : ℕ → ℕ} {i : ℕ} (i_lt : i < polyDegree) (x_lt : x i < 2 ^ 12)
    (r_lt : r i < 2 ^ 12) :
    ZeroOnEquality t polyDegree rnd x r i ↔ x i = r i ∨ (mask rnd i ≠ 0 ∧
      ∀ c < 4, 0 < c → 4096 * c < t →
        ¬ (mask rnd i : ℤ) * ((x i : ℤ) - r i) ≡ 4096 * c [ZMOD t]) := by
  have bits : ZeroOnEquality t polyDegree rnd x r i ↔
      (blindedSlot t (mask rnd i) (x i) (r i) % 2 ^ absorptionBits = 0 ↔ x i = r i) := by
    constructor
    · rintro ⟨enough, decrypts⟩
      rcases decrypts (max enough (polyDegree + 1)) (le_max_left _ _) with
        ⟨out_data, runs, zero⟩
      rcases decrypt_eq (fun i => blindedSlot t (mask rnd i) (x i) (r i))
        (Nat.lt_of_succ_le (le_max_right enough (polyDegree + 1))) with ⟨found, found_runs, slot⟩
      rw [runs] at found_runs
      rw [← slot i i_lt, ← Option.some.inj found_runs]
      exact zero
    · intro zero
      refine ⟨polyDegree + 1, fun fuel enough => ?_⟩
      rcases decrypt_eq (fun i => blindedSlot t (mask rnd i) (x i) (r i))
        (Nat.lt_of_succ_le enough) with ⟨out_data, runs, slot⟩
      refine ⟨out_data, runs, ?_⟩
      rw [slot i i_lt]
      exact zero
  have small := mask_lt rnd i
  have zero_iff := modEq_zero_iff prime (by omega : mask rnd i < t) (by omega : x i < t)
    (by omega : r i < t)
  rw [bits, blindedSlot_mod_iff t_lt prime.pos]
  constructor
  · intro exact
    rw [or_iff_not_imp_left]
    intro differ
    have none := mt exact.mp differ
    refine ⟨?_, ?_⟩
    · intro mask_zero
      exact none ⟨0, by decide, by omega, by
        rw [Nat.cast_zero, mul_zero, zero_iff]
        exact Or.inl mask_zero⟩
    · intro c c_lt _ inside same
      exact none ⟨c, c_lt, inside, same⟩
  · rintro (equal | ⟨mask_ne, apart⟩)
    · refine iff_of_true ⟨0, by decide, by omega, ?_⟩ equal
      rw [Nat.cast_zero, mul_zero, zero_iff]
      exact Or.inr equal
    · constructor
      · rintro ⟨c, c_lt, inside, same⟩
        rcases Nat.eq_zero_or_pos c with rfl | c_pos
        · rw [Nat.cast_zero, mul_zero, zero_iff] at same
          exact same.resolve_left mask_ne
        · exact absurd same (apart c c_lt c_pos inside)
      · intro equal
        refine ⟨0, by decide, by omega, ?_⟩
        rw [Nat.cast_zero, mul_zero, zero_iff]
        exact Or.inr equal

/-- The slots 5 and 3 with the mask 7. -/
theorem zeroOnEquality_iff_five :
    ZeroOnEquality 12289 1024 (fun _ => 7) (fun _ => 5) (fun _ => 3) 0 := by
  refine (zeroOnEquality_iff (by norm_num) (by decide) (by decide) (by decide) (by decide)
    (by decide)).mpr (Or.inr ⟨by decide, ?_⟩)
  decide

/-- The mask 2 takes the different slots 2048 and 0 to 4096, of which the lowest bits are zero. -/
theorem not_zeroOnEquality_masked :
    ¬ ZeroOnEquality 12289 1024 (fun _ => 2) (fun _ => 2048) (fun _ => 0) 0 := by
  rintro ⟨enough, decrypts⟩
  rcases decrypts (max enough 1025) (le_max_left _ _) with ⟨out_data, runs, zero⟩
  rcases decrypt_eq (fun _ => blindedSlot 12289 (mask (fun _ => 2) 0) 2048 0)
    (Nat.lt_of_succ_le (le_max_right enough 1025)) with ⟨found, found_runs, slot⟩
  have differ : slotBits 1024 out_data 0 ≠ 0 := mt zero.mp (by decide)
  rw [Option.some.inj (runs.symm.trans found_runs), slot 0 (by decide)] at differ
  exact differ (by decide)

end Equality

end Xpir.NFLFV
