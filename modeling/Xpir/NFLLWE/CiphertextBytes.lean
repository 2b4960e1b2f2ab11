import Xpir.NFLLWE.Ciphertexts
import Xpir.NFLLWE.Packing

/-!
# Ciphertexts in memory

The two components of a ciphertext lie one behind the other, each of them modulus by
modulus, in words of 64 bits. The server cuts these bytes into coefficients again, and the
client passes them to `decrypt`, which addresses the second component through the length
of the first one.

`decrypt_eq` says what decryption makes of the bytes of a ciphertext in the noise range:
the coefficients, packed without gaps.
-/

namespace Xpir

open NFLlib

namespace NFLLWE

section Model

variable (lwe : NFLLWE)

/-- The word of a polynomial at a position in its memory. -/
def memoryWord (poly : Poly lwe.nfl.nbModuli) (index : ℕ) : ℕ :=
  if inside : index / lwe.nfl.polyDegree < lwe.nfl.nbModuli then
    poly ⟨index / lwe.nfl.polyDegree, inside⟩ (index % lwe.nfl.polyDegree)
  else 0

/-- The words of a ciphertext: the second component follows the first one. -/
def cipherWord (cipher : Poly lwe.nfl.nbModuli × Poly lwe.nfl.nbModuli) (index : ℕ) : ℕ :=
  if index < lwe.nfl.nbModuli * lwe.nfl.polyDegree then lwe.memoryWord cipher.1 index
  else lwe.memoryWord cipher.2 (index - lwe.nfl.nbModuli * lwe.nfl.polyDegree)

def cipherBytes (cipher : Poly lwe.nfl.nbModuli × Poly lwe.nfl.nbModuli) (byte : ℕ) : UInt8 :=
  UInt8.ofNat (lwe.cipherWord cipher (byte / 8) >>> (8 * (byte % 8)))

/-- The ciphertext that begins at a pointer. -/
def ciphertextOf (cipheredData : ℕ → UInt8) : Poly lwe.nfl.nbModuli × Poly lwe.nfl.nbModuli :=
  let word (index : ℕ) := littleEndian (fun k => cipheredData (8 * index + k)) 8
  (fun cm i => word (cm * lwe.nfl.polyDegree + i),
    fun cm i => word (lwe.nfl.nbModuli * lwe.nfl.polyDegree + (cm * lwe.nfl.polyDegree + i)))

end Model

section Layout

variable {lwe : NFLLWE} {cipher other : Poly lwe.nfl.nbModuli × Poly lwe.nfl.nbModuli}
  {cipheredData : ℕ → UInt8}

theorem position_lt (cm : Fin lwe.nfl.nbModuli) {i : ℕ} (i_lt : i < lwe.nfl.polyDegree) :
    cm * lwe.nfl.polyDegree + i < lwe.nfl.nbModuli * lwe.nfl.polyDegree := by
  calc cm * lwe.nfl.polyDegree + i < (cm + 1) * lwe.nfl.polyDegree := by
        rw [Nat.succ_mul]
        exact Nat.add_lt_add_left i_lt _
    _ ≤ lwe.nfl.nbModuli * lwe.nfl.polyDegree := Nat.mul_le_mul_right _ cm.isLt

theorem memoryWord_position (poly : Poly lwe.nfl.nbModuli) (cm : Fin lwe.nfl.nbModuli) {i : ℕ}
    (i_lt : i < lwe.nfl.polyDegree) :
    lwe.memoryWord poly (cm * lwe.nfl.polyDegree + i) = poly cm i := by
  have degree_pos : 0 < lwe.nfl.polyDegree := Nat.two_pow_pos _
  have quotient : (cm * lwe.nfl.polyDegree + i) / lwe.nfl.polyDegree = cm := by
    rw [mul_comm, Nat.mul_add_div degree_pos, Nat.div_eq_of_lt i_lt, Nat.add_zero]
  have remainder : (cm * lwe.nfl.polyDegree + i) % lwe.nfl.polyDegree = i := by
    rw [mul_comm, Nat.mul_add_mod, Nat.mod_eq_of_lt i_lt]
  rw [memoryWord, dif_pos (by rw [quotient]; exact cm.isLt)]
  simp only [quotient, remainder]

/-- Eight bytes of a ciphertext are one of its words. -/
theorem littleEndian_cipherBytes (index : ℕ) :
    littleEndian (fun k => lwe.cipherBytes cipher (8 * index + k)) 8 =
      lwe.cipherWord cipher index % 2 ^ 64 := by
  rw [littleEndian, ← concatenate_bitSlice (by decide : 0 < 8) _ 8]
  apply concatenate_congr
  intro k k_lt
  have quotient : (8 * index + k) / 8 = index := by omega
  have remainder : (8 * index + k) % 8 = k := by omega
  rw [cipherBytes, quotient, remainder, UInt8.toNat_ofNat', Nat.shiftRight_eq_div_pow, bitSlice]

/-- The ciphertext is read as it was stored. -/
theorem ciphertextOf_eq
    (stored : ∀ byte < 16 * (lwe.nfl.nbModuli * lwe.nfl.polyDegree),
      cipheredData byte = lwe.cipherBytes cipher byte)
    (a_lt : ∀ cm, ∀ i < lwe.nfl.polyDegree, cipher.1 cm i < 2 ^ 64)
    (b_lt : ∀ cm, ∀ i < lwe.nfl.polyDegree, cipher.2 cm i < 2 ^ 64)
    (cm : Fin lwe.nfl.nbModuli) {i : ℕ} (i_lt : i < lwe.nfl.polyDegree) :
    (lwe.ciphertextOf cipheredData).1 cm i = cipher.1 cm i ∧
      (lwe.ciphertextOf cipheredData).2 cm i = cipher.2 cm i := by
  have inside := position_lt cm i_lt
  have words : ∀ index < 2 * (lwe.nfl.nbModuli * lwe.nfl.polyDegree),
      littleEndian (fun k => cipheredData (8 * index + k)) 8 =
        lwe.cipherWord cipher index % 2 ^ 64 := by
    intro index index_lt
    rw [← littleEndian_cipherBytes, littleEndian, littleEndian]
    apply concatenate_congr
    intro k k_lt
    rw [stored _ (by omega)]
  constructor
  · rw [ciphertextOf]
    dsimp only
    rw [words _ (by omega), cipherWord, if_pos inside, memoryWord_position _ cm i_lt,
      Nat.mod_eq_of_lt (a_lt cm i i_lt)]
  · rw [ciphertextOf]
    dsimp only
    rw [words _ (by omega), cipherWord, if_neg (by omega), Nat.add_sub_cancel_left,
      memoryWord_position _ cm i_lt, Nat.mod_eq_of_lt (b_lt cm i i_lt)]

end Layout

section Packed

variable {lwe : NFLLWE} {cipher : Poly lwe.nfl.nbModuli × Poly lwe.nfl.nbModuli}
  {coefficient : ℕ → ℕ} {value fuel : ℕ}

/-- The coefficients of a decrypted polynomial are packed without gaps. -/
theorem decrypt_of_decrypted (decrypted : lwe.Decrypted coefficient (lwe.dec cipher))
    (absorbs_pos : 0 < lwe.aBits) (short : lwe.nfl.nbModuli = 1 → lwe.aBits ≤ 56)
    (value_lt : value < 2 ^ (lwe.nfl.polyDegree * lwe.aBits))
    (slices : ∀ i < lwe.nfl.polyDegree,
      coefficient i = bitSlice value (i * lwe.aBits) lwe.aBits)
    (enough : (lwe.aBits ⌈/⌉ 64 + lwe.aBits ⌈/⌉ 32) * lwe.nfl.polyDegree < fuel) :
    ∃ outdata, lwe.decrypt fuel cipher = some outdata ∧
      ∀ byte, (outdata byte).toNat = bitSlice value (8 * byte) 8 := by
  rw [Nat.add_mul] at enough
  rw [decrypt]
  cases result : lwe.dec cipher with
  | uint64 words =>
      rw [result, decrypted_uint64] at decrypted
      have size_le := short decrypted.1
      have one : lwe.aBits ⌈/⌉ 64 = 1 := by
        rw [Nat.ceilDiv_eq_add_pred_div]
        omega
      have word : ∀ i < lwe.aBits ⌈/⌉ 64 * lwe.nfl.polyDegree,
          words i = bitSlice value (i * lwe.aBits) lwe.aBits := by
        intro i i_lt
        rw [one, one_mul] at i_lt
        rw [decrypted.2 i i_lt, slices i i_lt]
      rcases serializeData64_eq fuel size_le word (by omega) with ⟨outdata, runs, bytes⟩
      refine ⟨outdata, runs, ?_⟩
      intro byte
      rw [bytes byte, one, one_mul, Nat.mod_eq_of_lt value_lt]
  | uint32 words =>
      rw [result, decrypted_uint32] at decrypted
      have count_eq : lwe.aBits ⌈/⌉ 32 = subchunkCount 32 lwe.aBits := rfl
      have combien_eq : lwe.combien = subchunkCount 32 lwe.aBits := rfl
      have count_pos := subchunkCount_pos (by decide : 0 < 32) absorbs_pos
      have word : ∀ index < lwe.aBits ⌈/⌉ 32 * lwe.nfl.polyDegree,
          words index = bitSlice value (subchunkStart 32 lwe.aBits index)
            (subchunkSize 32 lwe.aBits (index % subchunkCount 32 lwe.aBits)) := by
        intro index index_lt
        have row_lt : index / subchunkCount 32 lwe.aBits < lwe.nfl.polyDegree := by
          apply Nat.div_lt_of_lt_mul
          rwa [count_eq] at index_lt
        have part_lt := Nat.mod_lt index count_pos
        have part := decrypted.2 _ row_lt (index % subchunkCount 32 lwe.aBits) part_lt
        rw [combien_eq, Nat.div_add_mod', slices _ row_lt] at part
        rw [part, ← part_eq_slice absorbs_pos index]
        rfl
      rcases serializeData32_eq fuel absorbs_pos word (by omega) with ⟨outdata, runs, bytes⟩
      refine ⟨outdata, runs, ?_⟩
      intro byte
      rw [bytes byte, count_eq, mul_comm (subchunkCount 32 lwe.aBits),
        subchunkStart_mul (by decide) absorbs_pos, Nat.mod_eq_of_lt value_lt]

/-- The bytes of a ciphertext in the noise range decrypt to its packed coefficients. -/
theorem LazilyEncrypts.decrypt_eq {v : ℕ → ℤ} {cipheredData : ℕ → UInt8}
    (encrypts : lwe.LazilyEncrypts cipher v)
    (absorbs : 2 ^ lwe.aBits ≤ lwe.nfl.moduliProduct)
    (small : ∀ i < lwe.nfl.polyDegree, 2 * |v i| < lwe.nfl.moduliProduct)
    (absorbs_pos : 0 < lwe.aBits) (short : lwe.nfl.nbModuli = 1 → lwe.aBits ≤ 56)
    (value_lt : value < 2 ^ (lwe.nfl.polyDegree * lwe.aBits))
    (low : ∀ i < lwe.nfl.polyDegree,
      v i % 2 ^ lwe.aBits = bitSlice value (i * lwe.aBits) lwe.aBits)
    (enough : (lwe.aBits ⌈/⌉ 64 + lwe.aBits ⌈/⌉ 32) * lwe.nfl.polyDegree < fuel)
    (stored : ∀ byte < 16 * (lwe.nfl.nbModuli * lwe.nfl.polyDegree),
      cipheredData byte = lwe.cipherBytes cipher byte) :
    ∃ outdata, lwe.decrypt fuel (lwe.ciphertextOf cipheredData) = some outdata ∧
      ∀ byte, (outdata byte).toNat = bitSlice value (8 * byte) 8 := by
  have word_lt : ∀ cm word, word < 2 * (lwe.nfl.moduli cm).p → word < 2 ^ 64 := by
    intro cm word lazy
    have p_lt := (lwe.nfl.moduli cm).p_lt
    omega
  have read := ciphertextOf_eq stored
    (fun cm i i_lt => word_lt cm _ (encrypts.lazy_a cm i i_lt))
    (fun cm i i_lt => word_lt cm _ (encrypts.lazy_b cm i i_lt))
  have decrypted := encrypts.decrypted absorbs small low
  refine decrypt_of_decrypted (decrypted_congr ?_ decrypted) absorbs_pos short value_lt
    (fun _ _ => rfl) enough
  intro cm i _
  rw [decPhase_congr read]

end Packed

end NFLLWE

end Xpir
