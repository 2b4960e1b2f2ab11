import Xpir.NFLLWE.CiphertextBytes
import Xpir.NFLLWE.LongChunks

/-!
# Imported polynomials

`deserializeDataNFL` makes polynomials of some buffers. The data import calls it with one
buffer for each element, and the reply generation calls it with the ciphertexts of a level.
`bitsplitter` cuts the bits into coefficients, and then each polynomial is transformed in
its place.

If the 32-bit counters suffice, then each polynomial is stored with the coefficients of
its own bytes, and the bytes of all polynomials are those of the buffers
(`deserializeDataNFL_carries`).
-/

namespace Xpir

open NFLlib

/-- The whole bytes of a string are a string of their own. -/
theorem bitSlice_littleEndian_bytes (bytes : ℕ → UInt8) (count start length : ℕ) :
    bitSlice (littleEndian bytes count) (8 * start) (8 * length) =
      littleEndian (fun k => if start + k < count then bytes (start + k) else 0) length := by
  apply Nat.eq_of_testBit_eq
  intro position
  rw [testBit_bitSlice, testBit_littleEndian, testBit_littleEndian]
  have quotient : (8 * start + position) / 8 = start + position / 8 := by omega
  have remainder : (8 * start + position) % 8 = position % 8 := by omega
  rw [quotient, remainder]
  by_cases inside : position < 8 * length
  · by_cases covered : start + position / 8 < count
    · have within : 8 * start + position < 8 * count := by omega
      simp [inside, covered, within]
    · have beyond : ¬ 8 * start + position < 8 * count := by omega
      simp [inside, covered, beyond]
  · simp [inside]

namespace PolyShape

variable {poly : PolyShape} {shape : SplitShape}

/-- All words of the imported polynomials are words of 64 bits. -/
theorem bitsplitter_lt {buffers : ℕ → ℤ → UInt8} {fuel : ℕ} {outdata : ℕ → ℕ}
    (returns : poly.bitsplitter shape fuel buffers = some outdata) (k : ℕ) {cm : ℕ}
    (cm_lt : cm < poly.nbModuli) : outdata (poly.cell k cm) < 2 ^ 64 := by
  by_cases long : 1 < shape.intUint64PerChunk
  · rw [bitsplitter_long_apply long returns k cm_lt]
    split
    next => exact Nat.mod_lt _ (Nat.two_pow_pos 64)
    next => exact Nat.two_pow_pos 64
  · have short : shape.bitsPerChunk ≤ 56 := by
      have count_le := not_lt.mp long
      rw [SplitShape.intUint64PerChunk, subchunkCount] at count_le
      omega
    refine bitsplitter_of_forall (fun word => word < 2 ^ 64) long (Nat.two_pow_pos 64) ?_ returns _
    intro k
    exact (bitSlice_lt _ _ _).trans_le (Nat.pow_le_pow_right (by decide) (by omega))

end PolyShape

namespace NFLLWE

variable (lwe : NFLLWE)

section Model

/-- The polynomials that lie one behind the other in the result of `bitsplitter`. -/
def polysIn (deserData : ℕ → ℕ) : ℕ → Poly lwe.nfl.nbModuli := fun i cm j =>
  deserData ((i * lwe.nfl.nbModuli + cm) * lwe.nfl.polyDegree + j)

/-- The polynomials that some buffers are cut into, counted by an `unsigned int`. -/
def deserializeDataNFL (moduli_pos : 0 < lwe.nfl.nbModuli) (fuel : ℕ) (shape : SplitShape)
    (inArrayOfBuffers : ℕ → ℤ → UInt8) : Option (ℕ → Poly lwe.nfl.nbModuli) :=
  ((lwe.polyShape moduli_pos).bitsplitter shape fuel inArrayOfBuffers).bind fun deserData =>
    counterLoop (2 ^ 32) fuel ((lwe.polyShape moduli_pos).polyNumber shape)
      (fun i polys => some (Function.update polys i (lwe.nfl.nttAndPowPhi (polys i))))
      (lwe.polysIn deserData)

end Model

/-- The bytes that a ciphertext absorbs. -/
def absorbedBytes : ℕ := lwe.nfl.polyDegree * lwe.aBits / 8

/-- A stored polynomial whose coefficients are the bits of some bytes. -/
def Carries (poly : Poly lwe.nfl.nbModuli) (bytes : ℕ → UInt8) : Prop :=
  lwe.Stored poly fun j =>
    bitSlice (littleEndian bytes lwe.absorbedBytes) (j * lwe.aBits) lwe.aBits

/-- The bytes of polynomial `i`, with zeros behind those of the last buffer. -/
def importedBytes (shape : SplitShape) (buffers : ℕ → ℤ → UInt8) (i byte : ℕ) : UInt8 :=
  let position := i * lwe.absorbedBytes + byte
  if position < shape.nbrOfBuffers * shape.bytesPerBuffer then
    buffers (position / shape.bytesPerBuffer) (position % shape.bytesPerBuffer : ℕ)
  else 0

section Import

variable {lwe} {moduli_pos : 0 < lwe.nfl.nbModuli} {shape : SplitShape}
  {buffers : ℕ → ℤ → UInt8}

/-- The degree divides the number of absorbed bits, whether it wraps around or not. -/
theorem polyDegree_mul_aBits (lwe : NFLLWE) :
    lwe.nfl.polyDegree * lwe.aBits = lwe.getAbsorptionBitsize := by
  have divides : lwe.nfl.polyDegree ∣ lwe.getAbsorptionBitsize := by
    rw [getAbsorptionBitsize]
    split
    next => exact dvd_zero _
    next =>
      have range : lwe.nfl.polyDegree ∣ 2 ^ 32 :=
        pow_dvd_pow 2 (lwe.nfl.levels_le.trans (by decide))
      exact (Nat.dvd_mod_iff range).mpr (dvd_mul_right _ _)
  rw [aBits, Nat.mul_div_cancel' divides]

theorem eight_mul_absorbedBytes (degree_dvd : 8 ∣ lwe.nfl.polyDegree) :
    8 * lwe.absorbedBytes = lwe.nfl.polyDegree * lwe.aBits :=
  Nat.mul_div_cancel' (degree_dvd.mul_right _)

theorem polyShape_moduli (cm : Fin lwe.nfl.nbModuli) :
    PolyShape.moduli cm = (lwe.nfl.moduli cm).p := by
  rcases lwe.isStandard with ⟨inRange, moduli_eq⟩
  rw [PolyShape.moduli, dif_pos (cm.isLt.trans_le inRange), moduli_eq]
  rfl

/-- The coefficients of a polynomial are the bits of its bytes. -/
theorem chunk_eq_importedBytes (degree_dvd : 8 ∣ lwe.nfl.polyDegree)
    (bits_eq : shape.bitsPerChunk = lwe.aBits) (buffers : ℕ → ℤ → UInt8) (i : ℕ) {j : ℕ}
    (j_lt : j < lwe.nfl.polyDegree) :
    PolyShape.chunk shape buffers (i * lwe.nfl.polyDegree + j) =
      bitSlice (littleEndian (lwe.importedBytes shape buffers i) lwe.absorbedBytes)
        (j * lwe.aBits) lwe.aBits := by
  have whole := eight_mul_absorbedBytes degree_dvd
  have inside : j * lwe.aBits + lwe.aBits ≤ lwe.nfl.polyDegree * lwe.aBits := by
    rw [← Nat.succ_mul]
    exact Nat.mul_le_mul_right _ j_lt
  have bytes := bitSlice_littleEndian_bytes
    (fun byte => buffers (byte / shape.bytesPerBuffer) (byte % shape.bytesPerBuffer : ℕ))
    (shape.nbrOfBuffers * shape.bytesPerBuffer) (i * lwe.absorbedBytes) lwe.absorbedBytes
  calc PolyShape.chunk shape buffers (i * lwe.nfl.polyDegree + j)
      = bitSlice (shape.bits buffers) (i * (lwe.nfl.polyDegree * lwe.aBits) + j * lwe.aBits)
          lwe.aBits := by
        rw [PolyShape.chunk, bits_eq, Nat.add_mul, mul_assoc]
    _ = bitSlice (bitSlice (shape.bits buffers) (8 * (i * lwe.absorbedBytes))
          (8 * lwe.absorbedBytes)) (j * lwe.aBits) lwe.aBits := by
        rw [← whole] at inside ⊢
        rw [bitSlice_bitSlice _ _ _ _ _ inside, Nat.mul_left_comm]
    _ = _ := by
        rw [SplitShape.bits, bytes]
        rfl

/--
As long as the counters suffice, each polynomial is stored with the coefficients of its
own bytes.
-/
theorem deserializeDataNFL_carries (degree_dvd : 8 ∣ lwe.nfl.polyDegree)
    (bits_eq : shape.bitsPerChunk = lwe.aBits) (chunk_le : shape.bitsPerChunk ≤ 448)
    (fits : (lwe.polyShape moduli_pos).CountersFit shape)
    (few : (lwe.polyShape moduli_pos).polyNumber shape < 2 ^ 32) {fuel : ℕ}
    (enough : 2 * shape.bitsPerBuffer + 65 + PolyShape.totalNbChunks shape +
      (lwe.polyShape moduli_pos).polyNumber shape < fuel) :
    ∃ polys, lwe.deserializeDataNFL moduli_pos fuel shape buffers = some polys ∧
      ∀ i < (lwe.polyShape moduli_pos).polyNumber shape,
        lwe.Carries (polys i) (lwe.importedBytes shape buffers i) := by
  rcases PolyShape.holdsChunks_of_sums fits
    (fun _ k _ cm_lt => PolyShape.crtSum_lt (shape.subchunk buffers)
      (PolyShape.intUint64PerChunk_le chunk_le) k cm_lt) enough with ⟨deserData, splits, holds⟩
  -- Before its turn a polynomial holds coefficients, afterwards it is transformed.
  rcases counterLoop_total (2 ^ 32) fuel ((lwe.polyShape moduli_pos).polyNumber shape)
    (fun i polys => some (Function.update polys i (lwe.nfl.nttAndPowPhi (polys i))))
    (lwe.polysIn deserData)
    (fun done polys => ∀ i, polys i =
      if i < done then lwe.nfl.nttAndPowPhi (lwe.polysIn deserData i)
      else lwe.polysIn deserData i)
    (fun i => rfl)
    (by
      intro done polys _ before
      refine ⟨_, rfl, ?_⟩
      intro i
      rcases eq_or_ne i done with rfl | other
      · rw [Function.update_self, if_pos (Nat.lt_succ_self i), before i, if_neg (lt_irrefl i)]
      · rw [Function.update_of_ne other, before i]
        exact if_congr (by omega) rfl rfl)
    few (by omega) with ⟨polys, runs, transformed⟩
  refine ⟨polys, by rw [deserializeDataNFL, splits, Option.bind_some, runs], ?_⟩
  intro i i_lt cm
  have degree_pos : 0 < lwe.nfl.polyDegree := Nat.two_pow_pos _
  have place : ∀ j < lwe.nfl.polyDegree, lwe.polysIn deserData i cm j =
      deserData ((lwe.polyShape moduli_pos).cell (i * lwe.nfl.polyDegree + j) cm) := by
    intro j j_lt
    change _ = deserData (((i * lwe.nfl.polyDegree + j) / lwe.nfl.polyDegree * lwe.nfl.nbModuli +
      cm) * lwe.nfl.polyDegree + (i * lwe.nfl.polyDegree + j) % lwe.nfl.polyDegree)
    rw [mul_comm i, Nat.mul_add_div degree_pos, Nat.div_eq_of_lt j_lt, Nat.add_zero,
      Nat.mul_add_mod, Nat.mod_eq_of_lt j_lt, polysIn]
  have words : ∀ j < lwe.nfl.polyDegree, lwe.polysIn deserData i cm j < 2 ^ 64 := by
    intro j j_lt
    rw [place j j_lt]
    exact PolyShape.bitsplitter_lt splits _ cm.isLt
  rw [transformed i, if_pos i_lt]
  intro cell cell_lt
  rcases nttAndPowPhi_represents words cell cell_lt with ⟨lazy, value⟩
  refine ⟨lazy, ?_⟩
  rw [value, transformOf]
  apply negacyclicTransform_congr
  intro j j_lt
  have inside : i * lwe.nfl.polyDegree + j <
      (lwe.polyShape moduli_pos).polyNumber shape * lwe.nfl.polyDegree := by
    calc i * lwe.nfl.polyDegree + j < (i + 1) * lwe.nfl.polyDegree := by
          rw [Nat.succ_mul]
          exact Nat.add_lt_add_left j_lt _
      _ ≤ _ := Nat.mul_le_mul_right _ i_lt
  have congruent := holds.modEq inside cm.isLt
  rw [polyShape_moduli, chunk_eq_importedBytes degree_dvd bits_eq buffers i j_lt] at congruent
  rw [place j j_lt]
  exact (ZMod.natCast_eq_natCast_iff _ _ _).mpr congruent

end Import

end NFLLWE

end Xpir
