import Xpir.Foundations.ByteStream
import Xpir.NFLLWE.Decryption
import Xpir.NFLlib.Bitsplitter
import Xpir.NFLlib.Serialize

/-!
# Packing and unpacking

The data import cuts a byte string into coefficients, polynomial by polynomial,
and decryption puts the coefficients of each polynomial together again. This file
models the second half of decryption and shows that it undoes the import: what is
unpacked from all polynomials is the byte string followed by zero bytes.
-/

namespace Xpir

open NFLlib

section Model

/-- The arrays in which decryption leaves given coefficients. -/
def layOut (nbModuli bitsPerCoordinate : ℕ) (coefficient : ℕ → ℕ) : ClearData :=
  if nbModuli = 1 then .uint64 coefficient
  else
    .uint32 (fun index =>
      bitSlice (coefficient (index / subchunkCount 32 bitsPerCoordinate))
        (32 * (index % subchunkCount 32 bitsPerCoordinate)) 32)

/-- The serialization at the end of `decrypt`. -/
def serializeClear (fuel bitsPerCoordinate polyDegree : ℕ) : ClearData → Option (ℕ → UInt8)
  | .uint64 words =>
      serializeData64 fuel words bitsPerCoordinate ((bitsPerCoordinate ⌈/⌉ 64) * polyDegree)
  | .uint32 words =>
      serializeData32 fuel words bitsPerCoordinate ((bitsPerCoordinate ⌈/⌉ 32) * polyDegree)

def NFLLWE.decrypt (lwe : NFLLWE) (fuel : ℕ)
    (cipher : Poly lwe.nfl.nbModuli × Poly lwe.nfl.nbModuli) : Option (ℕ → UInt8) :=
  serializeClear fuel lwe.aBits lwe.nfl.polyDegree (lwe.dec cipher)

/-- A coefficient as a plain integer, from its subchunks. -/
def SplitState.coefficient (state : SplitState) (bitsPerChunk k : ℕ) : ℕ :=
  concatenate 56 (fun j => state.splitData (k * subchunkCount 56 bitsPerChunk + j))
    (subchunkCount 56 bitsPerChunk)

end Model

section Polynomials

variable {nbModuli bitsPerCoordinate polyDegree value : ℕ}

/-- The 32-bit parts of a coefficient are slices of the polynomial. -/
theorem part_eq_slice (chunk_pos : 0 < bitsPerCoordinate) (index : ℕ) :
    bitSlice (bitSlice value (index / subchunkCount 32 bitsPerCoordinate * bitsPerCoordinate)
        bitsPerCoordinate) (32 * (index % subchunkCount 32 bitsPerCoordinate)) 32 =
      bitSlice value (subchunkStart 32 bitsPerCoordinate index)
        (subchunkSize 32 bitsPerCoordinate (index % subchunkCount 32 bitsPerCoordinate)) := by
  have count_pos := subchunkCount_pos (by decide : 0 < 32) chunk_pos
  have size_le := subchunkSize_le (by decide : 0 < 32) chunk_pos
    (index % subchunkCount 32 bitsPerCoordinate)
  have below := mul_subchunkCount_pred_lt (by decide : 0 < 32) chunk_pos
  have part_lt := Nat.mod_lt index count_pos
  have ends : 32 * (index % subchunkCount 32 bitsPerCoordinate) +
      subchunkSize 32 bitsPerCoordinate (index % subchunkCount 32 bitsPerCoordinate) ≤
        bitsPerCoordinate ∧
      (subchunkSize 32 bitsPerCoordinate (index % subchunkCount 32 bitsPerCoordinate) = 32 ∨
        32 * (index % subchunkCount 32 bitsPerCoordinate) +
          subchunkSize 32 bitsPerCoordinate (index % subchunkCount 32 bitsPerCoordinate) =
            bitsPerCoordinate) := by
    rw [subchunkSize]
    split <;> omega
  have truncated : bitSlice (bitSlice value
      (index / subchunkCount 32 bitsPerCoordinate * bitsPerCoordinate) bitsPerCoordinate)
        (32 * (index % subchunkCount 32 bitsPerCoordinate)) 32 =
      bitSlice (bitSlice value
        (index / subchunkCount 32 bitsPerCoordinate * bitsPerCoordinate) bitsPerCoordinate)
          (32 * (index % subchunkCount 32 bitsPerCoordinate))
          (subchunkSize 32 bitsPerCoordinate (index % subchunkCount 32 bitsPerCoordinate)) := by
    rcases ends.2 with whole | last
    · rw [whole]
    · apply bitSlice_of_lt _ size_le
      rw [last]
      exact bitSlice_lt _ _ _
  rw [truncated, bitSlice_bitSlice _ _ _ _ _ ends.1, subchunkStart, mul_comm 32]

/-- The coefficients of a polynomial are serialized to the bits of the polynomial. -/
theorem serializeClear_layOut (chunk_pos : 0 < bitsPerCoordinate)
    (short : nbModuli = 1 → bitsPerCoordinate ≤ 56)
    (value_lt : value < 2 ^ (polyDegree * bitsPerCoordinate)) {coefficient : ℕ → ℕ}
    (slices : ∀ x < polyDegree,
      coefficient x = bitSlice value (x * bitsPerCoordinate) bitsPerCoordinate)
    (fuel : ℕ) (enough : (bitsPerCoordinate ⌈/⌉ 64 + bitsPerCoordinate ⌈/⌉ 32) * polyDegree < fuel) :
    ∃ outdata, serializeClear fuel bitsPerCoordinate polyDegree
        (layOut nbModuli bitsPerCoordinate coefficient) = some outdata ∧
      ∀ byte, (outdata byte).toNat = bitSlice value (8 * byte) 8 := by
  rw [Nat.add_mul] at enough
  rw [layOut]
  split
  next single =>
    have size_le := short single
    have one : bitsPerCoordinate ⌈/⌉ 64 = 1 := by
      rw [Nat.ceilDiv_eq_add_pred_div]
      omega
    have word : ∀ x < bitsPerCoordinate ⌈/⌉ 64 * polyDegree,
        coefficient x = bitSlice value (x * bitsPerCoordinate) bitsPerCoordinate := by
      rwa [one, one_mul]
    rcases serializeData64_eq fuel size_le word (by omega) with ⟨outdata, runs, bytes⟩
    refine ⟨outdata, runs, ?_⟩
    intro byte
    rw [bytes byte, one, one_mul, Nat.mod_eq_of_lt value_lt]
  next several =>
    have count_eq : bitsPerCoordinate ⌈/⌉ 32 = subchunkCount 32 bitsPerCoordinate := rfl
    have count_pos := subchunkCount_pos (by decide : 0 < 32) chunk_pos
    have word : ∀ index < bitsPerCoordinate ⌈/⌉ 32 * polyDegree,
        bitSlice (coefficient (index / subchunkCount 32 bitsPerCoordinate))
            (32 * (index % subchunkCount 32 bitsPerCoordinate)) 32 =
          bitSlice value (subchunkStart 32 bitsPerCoordinate index)
            (subchunkSize 32 bitsPerCoordinate
              (index % subchunkCount 32 bitsPerCoordinate)) := by
      intro index index_lt
      have row_lt : index / subchunkCount 32 bitsPerCoordinate < polyDegree := by
        apply Nat.div_lt_of_lt_mul
        rwa [count_eq] at index_lt
      rw [slices _ row_lt]
      exact part_eq_slice chunk_pos index
    rcases serializeData32_eq fuel chunk_pos word (by omega) with ⟨outdata, runs, bytes⟩
    refine ⟨outdata, runs, ?_⟩
    intro byte
    rw [bytes byte, count_eq, mul_comm (subchunkCount 32 bitsPerCoordinate),
      subchunkStart_mul (by decide) chunk_pos, Nat.mod_eq_of_lt value_lt]

end Polynomials

section ByteStrings

/-- The bit string of a single buffer that holds a byte string. -/
theorem bits_single (shape : SplitShape) {data : List UInt8} (single : shape.nbrOfBuffers = 1)
    (bytes : shape.bytesPerBuffer = data.length) {buffer : ℤ → UInt8}
    (holds : ∀ byte < data.length, buffer byte = data.getD byte 0) :
    shape.bits (fun _ => buffer) = littleEndian (fun byte => data.getD byte 0) data.length := by
  rw [SplitShape.bits, single, bytes, one_mul]
  apply concatenate_congr
  intro byte byte_lt
  simp only [Nat.mod_eq_of_lt byte_lt, holds byte byte_lt]

/--
A byte string imported in one buffer, then laid out, serialized and cut to the bytes
of whole polynomials, is unchanged up to zero bytes after it.
-/
theorem serializeClear_bitsplitter (data : List UInt8) (bits_lt : 8 * data.length < 2 ^ 64)
    {nbModuli bitsPerCoordinate polyDegree : ℕ} (degree_pos : 0 < polyDegree)
    (degree_dvd : 8 ∣ polyDegree) (chunk_pos : 0 < bitsPerCoordinate)
    (short : nbModuli = 1 → bitsPerCoordinate ≤ 56) (buffer : ℤ → UInt8)
    (holds : ∀ byte < data.length, buffer byte = data.getD byte 0) :
    let shape : SplitShape := ⟨1, data.length, bitsPerCoordinate, chunk_pos, Or.inl rfl, bits_lt⟩
    let polyNumber := 8 * data.length ⌈/⌉ (bitsPerCoordinate * polyDegree)
    let polyBytes := bitsPerCoordinate * polyDegree / 8
    ∃ (fuel : ℕ) (state : SplitState) (outdata : ℕ → ℕ → UInt8),
      shape.splitBuffers fuel (fun _ => buffer) = some state ∧
      (∀ i < polyNumber, serializeClear fuel bitsPerCoordinate polyDegree
        (layOut nbModuli bitsPerCoordinate
          (fun x => state.coefficient bitsPerCoordinate (i * polyDegree + x))) =
            some (outdata i)) ∧
      (List.range polyNumber).flatMap (fun i => (List.range polyBytes).map (outdata i)) =
        data ++ List.replicate (polyNumber * polyBytes - data.length) 0 := by
  intro shape polyNumber polyBytes
  let fuel := 2 * shape.bitsPerBuffer + 66 +
    (bitsPerCoordinate ⌈/⌉ 64 + bitsPerCoordinate ⌈/⌉ 32) * polyDegree
  rcases shape.splitBuffers_eq (fun _ => buffer) fuel (by omega) with
    ⟨state, splits, chunks⟩
  have bits_eq := bits_single shape rfl rfl holds
  have coefficient_eq : ∀ k, state.coefficient bitsPerCoordinate k =
      bitSlice (shape.bits fun _ => buffer) (k * bitsPerCoordinate) bitsPerCoordinate := by
    intro k
    have digits : _ = PolyShape.chunk shape (fun _ => buffer) k :=
      PolyShape.concatenate_subchunk (fun _ => buffer) k
    rw [PolyShape.chunk] at digits
    rw [SplitState.coefficient, funext chunks]
    exact digits
  have poly_eq : polyDegree * bitsPerCoordinate = 8 * polyBytes := by
    rw [mul_comm polyDegree]
    exact (Nat.mul_div_cancel' (degree_dvd.mul_left bitsPerCoordinate)).symm
  have slices : ∀ i, ∀ x < polyDegree,
      state.coefficient bitsPerCoordinate (i * polyDegree + x) =
        bitSlice (bitSlice (shape.bits fun _ => buffer) (i * (polyDegree * bitsPerCoordinate))
          (polyDegree * bitsPerCoordinate)) (x * bitsPerCoordinate) bitsPerCoordinate := by
    intro i x x_lt
    have inside : x * bitsPerCoordinate + bitsPerCoordinate ≤ polyDegree * bitsPerCoordinate := by
      rw [← Nat.succ_mul]
      exact Nat.mul_le_mul_right _ x_lt
    rw [coefficient_eq, bitSlice_bitSlice _ _ _ _ _ inside, Nat.add_mul, mul_assoc]
  choose outdata runs bytes using fun i => serializeClear_layOut chunk_pos short
    (bitSlice_lt (shape.bits fun _ => buffer) (i * (polyDegree * bitsPerCoordinate)) _)
    (slices i) fuel (by omega)
  refine ⟨fuel, state, outdata, splits, fun i _ => runs i, ?_⟩
  have enough : data.length ≤ polyNumber * polyBytes := by
    have covered := (ceilDiv_le_iff_le_mul (b := 8 * data.length) (c := polyNumber)
      (Nat.mul_pos chunk_pos degree_pos)).mp le_rfl
    rw [mul_comm bitsPerCoordinate, poly_eq, mul_assoc, mul_comm polyBytes] at covered
    exact Nat.le_of_mul_le_mul_left covered (by decide)
  rw [← map_range_getD data enough]
  apply flatMap_blocks
  intro i _ byte byte_lt
  have inside : 8 * byte + 8 ≤ polyDegree * bitsPerCoordinate := by omega
  apply UInt8.toNat_inj.mp
  rw [bytes, bitSlice_bitSlice _ _ _ _ _ inside, bits_eq, poly_eq, Nat.mul_left_comm, ← Nat.mul_add,
    bitSlice_littleEndian]
  split
  next => rfl
  next outside => rw [List.getD_eq_default data 0 (not_lt.mp outside)]; rfl

/-- Three bytes in coefficients of 40 bits. -/
theorem serializeClear_bitsplitter_three :
    ∃ (fuel : ℕ) (state : SplitState) (outdata : ℕ → ℕ → UInt8),
      SplitShape.splitBuffers ⟨1, 3, 40, by decide, by decide, by decide⟩ fuel
        (fun _ byte => [1, 2, 3].getD byte.toNat 0) = some state ∧
      (∀ i < 1, serializeClear fuel 40 8
        (layOut 2 40 (fun x => state.coefficient 40 (i * 8 + x))) = some (outdata i)) ∧
      (List.range 1).flatMap (fun i => (List.range 40).map (outdata i)) =
        [1, 2, 3] ++ List.replicate 37 0 :=
  serializeClear_bitsplitter [1, 2, 3] (by decide) (by decide : 0 < 8) (by decide : 8 ∣ 8)
    (by decide : 0 < 40) (by decide : 2 = 1 → 40 ≤ 56)
    (fun byte => [1, 2, 3].getD byte.toNat 0) (fun _ _ => rfl)

end ByteStrings

end Xpir
