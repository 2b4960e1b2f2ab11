import Xpir.NFLFV.FVObject
import Xpir.NFLLWE.ImportedPolynomials

/-!
# Imported slots

The import cuts the bits of some buffers into the slots of polynomials. Those of the database
are multiplied with the mask of the object, if it has one, those of ciphertexts never are. A
polynomial that is made of slots carries them (`deserializeDataNFL_carries`), and the
ciphertexts that are sent carry the slots of their message as bytes (`decryptBytes_eq`).
-/

namespace Xpir.Nfl

namespace PolyType

variable {P : PolyType} {op other : P.poly} {v : ℕ → ℤ}

/-- Only the values at the roots count. -/
theorem Transforms.of_eq (transforms : P.Transforms op v)
    (same : ∀ cm, ∀ cell < P.degree, other cm cell = op cm cell) : P.Transforms other v := by
  intro cm cell cell_lt
  rw [same cm cell cell_lt]
  exact transforms cm cell cell_lt

end PolyType

theorem FV.Carries.congr {fv : FV} {p other : fv.poly_p.poly} {slots others : fv.polyP_p.poly}
    (carries : fv.Carries p slots)
    (same : ∀ cm, ∀ cell < fv.degree, other cm cell = p cm cell)
    (same_slots : ∀ cm, ∀ cell < fv.degree, others cm cell = slots cm cell) :
    fv.Carries other others := by
  rcases carries with ⟨m, transforms, range, values⟩
  exact ⟨m, transforms.of_eq same, range, values.of_eq same_slots⟩

namespace FVobject

variable (object : FVobject)

/-- The bytes that a ciphertext absorbs. -/
def absorbedBytes : ℕ := object.fv.degree * NFLFV.absorptionBits / 8

/-- The bytes of polynomial `i`, with zeros behind those of the last buffer. -/
def importedBytes (shape : SplitShape) (buffers : ℕ → ℤ → UInt8) (i byte : ℕ) : UInt8 :=
  let position := i * object.absorbedBytes + byte
  if position < shape.nbrOfBuffers * shape.bytesPerBuffer then
    buffers (position / shape.bytesPerBuffer) (position % shape.bytesPerBuffer : ℕ)
  else 0

/-- The slots that some bytes are cut into. -/
def bytesSlots (bytes : ℕ → UInt8) (j : ℕ) : ℕ :=
  bitSlice (littleEndian bytes object.absorbedBytes) (j * NFLFV.absorptionBits)
    NFLFV.absorptionBits

/-- The bytes of some slots, of which the lowest bits are kept. -/
def packed (slots : ℕ → ℕ) : ℕ :=
  concatenate NFLFV.absorptionBits (fun i => slots i % 2 ^ NFLFV.absorptionBits) object.fv.degree

section Import

variable {object} {shape : SplitShape} {buffers : ℕ → ℤ → UInt8}

theorem absorptionBits_pos : 0 < NFLFV.absorptionBits := by decide

theorem eight_mul_absorbedBytes (object : FVobject) :
    8 * object.absorbedBytes = object.fv.degree * NFLFV.absorptionBits := by
  have divides : 8 ∣ object.fv.degree := pow_dvd_pow 2 object.levels_ge
  exact Nat.mul_div_cancel' (divides.mul_right _)

theorem maskSlots_apply (first_ : ℕ) {Pp other : object.fv.polyP_p.poly}
    {cm : Fin object.fv.polyP_p.nmoduli} {cell : ℕ} (same : other cm cell = Pp cm cell) :
    maskSlots first_ other cm cell = maskSlots first_ Pp cm cell := by
  cases masks_eq : object.masks with
  | some masks =>
      simp only [maskSlots, masks_eq]
      split
      · rw [Pi.mul_apply, Pi.mul_apply, Pi.mul_apply, Pi.mul_apply, same]
      · exact same
  | none =>
      simp only [maskSlots, masks_eq]
      exact same

/-- Each slot is cut out of the bytes of its polynomial. -/
theorem chunk_eq_bytesSlots (bits_eq : shape.bitsPerChunk = NFLFV.absorptionBits)
    (buffers : ℕ → ℤ → UInt8) (i : ℕ) {j : ℕ} (j_lt : j < object.fv.degree) :
    PolyShape.chunk shape buffers (i * object.fv.degree + j) =
      object.bytesSlots (object.importedBytes shape buffers i) j := by
  have whole := eight_mul_absorbedBytes object
  have inside : j * NFLFV.absorptionBits + NFLFV.absorptionBits ≤
      object.fv.degree * NFLFV.absorptionBits := by
    rw [← Nat.succ_mul]
    exact Nat.mul_le_mul_right _ j_lt
  have bytes := bitSlice_littleEndian_bytes
    (fun byte => buffers (byte / shape.bytesPerBuffer) (byte % shape.bytesPerBuffer : ℕ))
    (shape.nbrOfBuffers * shape.bytesPerBuffer) (i * object.absorbedBytes) object.absorbedBytes
  calc PolyShape.chunk shape buffers (i * object.fv.degree + j)
      = bitSlice (shape.bits buffers) (i * (object.fv.degree * NFLFV.absorptionBits) +
          j * NFLFV.absorptionBits) NFLFV.absorptionBits := by
        rw [PolyShape.chunk, bits_eq, Nat.add_mul, mul_assoc]
    _ = bitSlice (bitSlice (shape.bits buffers) (8 * (i * object.absorbedBytes))
          (8 * object.absorbedBytes)) (j * NFLFV.absorptionBits) NFLFV.absorptionBits := by
        rw [← whole] at inside ⊢
        rw [bitSlice_bitSlice _ _ _ _ _ inside, Nat.mul_left_comm]
    _ = _ := by
        rw [SplitShape.bits, bytes]
        rfl

/-- The words that are made into slots are the bits of the bytes. -/
theorem bitsplitter_word (bits_eq : shape.bitsPerChunk = NFLFV.absorptionBits) {fuel : ℕ}
    {deserData : ℕ → ℕ}
    (splits : object.bitsplit.bitsplitter shape fuel buffers = some deserData)
    (holds : object.bitsplit.HoldsChunks shape buffers deserData) {i : ℕ}
    (i_lt : i < object.bitsplit.polyNumber shape) {j : ℕ} (j_lt : j < object.fv.degree) :
    deserData (i * object.polyWords + j) =
      object.bytesSlots (object.importedBytes shape buffers i) j := by
  have degree_pos : 0 < object.fv.degree := PolyType.degree_pos
  have short : ¬ 1 < shape.intUint64PerChunk := by
    rw [SplitShape.intUint64PerChunk, bits_eq]
    decide
  have chunk_lt : ∀ k, PolyShape.chunk shape buffers k < 2 ^ NFLFV.absorptionBits := by
    intro k
    rw [← bits_eq]
    exact bitSlice_lt _ _ _
  have word_lt := PolyShape.bitsplitter_of_forall (fun word => word < 2 ^ NFLFV.absorptionBits)
    short (Nat.two_pow_pos _) chunk_lt splits
  have place : object.bitsplit.cell (i * object.fv.degree + j) 0 = i * object.polyWords + j := by
    change ((i * object.fv.degree + j) / object.fv.degree * object.fv.poly_p.nmoduli + 0) *
      object.fv.degree + (i * object.fv.degree + j) % object.fv.degree = _
    rw [mul_comm i, Nat.mul_add_div degree_pos, Nat.div_eq_of_lt j_lt, Nat.mul_add_mod,
      Nat.mod_eq_of_lt j_lt, polyWords]
    ring
  have inside : i * object.fv.degree + j <
      object.bitsplit.polyNumber shape * object.bitsplit.polyDegree := by
    calc i * object.fv.degree + j < (i + 1) * object.fv.degree := by
          rw [Nat.succ_mul]
          exact Nat.add_lt_add_left j_lt _
      _ ≤ _ := Nat.mul_le_mul_right _ i_lt
  have congruent := holds.modEq inside object.moduli_pos
  have modulus_gt : 2 ^ NFLFV.absorptionBits < PolyShape.moduli 0 := by
    decide +kernel
  rw [place] at congruent
  rw [← chunk_eq_bytesSlots bits_eq buffers i j_lt]
  exact congruent.eq_of_lt_of_lt ((word_lt _).trans modulus_gt) ((chunk_lt _).trans modulus_gt)

/-- As long as the counters suffice, each polynomial carries the slots of its own bytes. -/
theorem deserializeDataNFL_carries (bits_eq : shape.bitsPerChunk = NFLFV.absorptionBits)
    (fits : object.bitsplit.CountersFit shape)
    (few : object.bitsplit.polyNumber shape < 2 ^ 32) {fuel : ℕ}
    (enough : 2 * shape.bitsPerBuffer + 65 + PolyShape.totalNbChunks shape +
      object.bitsplit.polyNumber shape < fuel) (first_ : ℕ) :
    ∃ deserData, object.deserializeDataNFL fuel shape buffers first_ = some deserData ∧
      ∀ i < object.bitsplit.polyNumber shape, object.fv.Carries
        (object.fv.transformtopolyp fun index => deserData (i * object.polyWords + index))
        (maskSlots first_ (object.fv.polyP_p.set
          (object.bytesSlots (object.importedBytes shape buffers i)))) := by
  have short : ¬ 1 < shape.intUint64PerChunk := by
    rw [SplitShape.intUint64PerChunk, bits_eq]
    decide
  rcases PolyShape.holdsChunks_of_sums fits (fun long => absurd long short) enough with
    ⟨initial, splits, holds⟩
  -- A row holds its slots before its turn, and the words of its polynomial afterwards.
  rcases counterLoop_total (2 ^ 32) fuel (object.bitsplit.polyNumber shape)
    (fun i deserData => some (storeWords deserData (i * object.polyWords) object.polyWords
      (object.fv.memoryWord
        (importSlots first_ fun k => deserData (i * object.polyWords + k))))) initial
    (fun done deserData => ∀ i < object.bitsplit.polyNumber shape, if i < done then
        ∃ p, object.fv.Carries p (maskSlots first_ (object.fv.polyP_p.set
            (object.bytesSlots (object.importedBytes shape buffers i)))) ∧
          ∀ index < object.polyWords,
            deserData (i * object.polyWords + index) = object.fv.memoryWord p index
      else ∀ index < object.polyWords,
        deserData (i * object.polyWords + index) = initial (i * object.polyWords + index))
    (fun i _ => by rw [if_neg (Nat.not_lt_zero i)]; exact fun _ _ => rfl)
    (by
      intro done deserData done_lt before
      refine ⟨_, rfl, ?_⟩
      intro i i_lt
      rcases eq_or_ne i done with rfl | other
      · have row := before i i_lt
        rw [if_neg (lt_irrefl i)] at row
        rw [if_pos (Nat.lt_succ_self i)]
        refine ⟨importSlots first_ fun k => deserData (i * object.polyWords + k), ?_,
          fun index index_lt => storeWords_inside _ _ _ index_lt⟩
        refine (FV.carries_encodeSlots _).congr (fun _ _ _ => rfl) ?_
        intro cm cell cell_lt
        apply maskSlots_apply
        have inside : cell < object.polyWords :=
          cell_lt.trans_le (Nat.le_mul_of_pos_left _ object.moduli_pos)
        rw [PolyType.set, PolyType.set, row cell inside,
          bitsplitter_word bits_eq splits holds i_lt cell_lt]
      · have kept := before i i_lt
        have unchanged : ∀ word index, index < object.polyWords →
            storeWords deserData (done * object.polyWords) object.polyWords word
              (i * object.polyWords + index) = deserData (i * object.polyWords + index) :=
          fun word index index_lt => storeWords_other deserData word other index_lt
        by_cases earlier : i < done
        · rw [if_pos earlier] at kept
          rw [if_pos (by omega)]
          rcases kept with ⟨p, carries, words⟩
          refine ⟨p, carries, ?_⟩
          intro index index_lt
          rw [unchanged _ index index_lt, words index index_lt]
        · rw [if_neg earlier] at kept
          rw [if_neg (by omega)]
          intro index index_lt
          rw [unchanged _ index index_lt, kept index index_lt])
    few (by omega) with ⟨deserData, runs, after⟩
  refine ⟨deserData, by rw [deserializeDataNFL, splits, Option.bind_some, runs], ?_⟩
  intro i i_lt
  have row := after i i_lt
  rw [if_pos i_lt] at row
  rcases row with ⟨p, carries, words⟩
  exact carries.congr (fun cm _ cell_lt => FV.transformtopolyp_eq words cm cell_lt)
    fun _ _ _ => rfl

end Import

/-! ## Ciphertexts as bytes -/

section Model

variable {object} (keys : object.fv.Keys)

/-- The words of a ciphertext: the second polynomial follows the first one. -/
def cipherWord (c : object.Cipher) (index : ℕ) : ℕ :=
  if index < object.polyWords then object.fv.memoryWord c.1 index
  else object.fv.memoryWord c.2 (index - object.polyWords)

def cipherBytes (c : object.Cipher) : ℕ → UInt8 := wordBytes (cipherWord c)

/-- The ciphertext that begins at a pointer. -/
def ciphertextOf (cipheredData : ℕ → UInt8) : object.Cipher :=
  (object.fv.transformtopolyp (wordAt cipheredData),
    object.fv.transformtopolyp fun index => wordAt cipheredData (object.polyWords + index))

/-- The bytes that the client decrypts from the bytes of a ciphertext. -/
def decryptBytes (_recLvl : ℕ) (cipheredData : ℕ → UInt8) : ℕ → UInt8 :=
  (NFLFV.decrypt (object.fv.degree + 1) object.fv.degree
    (dec keys (ciphertextOf cipheredData))).getD fun _ => 0

end Model

section Bytes

variable {object} {keys : object.fv.Keys} {c : object.Cipher} {cipheredData : ℕ → UInt8}

theorem cipherWord_lt (c : object.Cipher) (index : ℕ) : cipherWord c index < 2 ^ 64 := by
  have word_lt := fun p => @FV.memoryWord_lt object.fv p
  have bits : object.fv.poly_p.T.bits = 64 := by
    rw [object.words64]
    rfl
  rw [bits] at word_lt
  rw [cipherWord]
  split
  next => exact word_lt _ _
  next => exact word_lt _ _

/-- A ciphertext is read as it was sent. -/
theorem holds_ciphertextOf {v : ℕ → ℤ} (holds : FV.Holds keys (transformtoFV_cipher c) v)
    (stored : ∀ byte < 8 * (2 * object.polyWords), cipheredData byte = cipherBytes c byte) :
    FV.Holds keys (transformtoFV_cipher (ciphertextOf cipheredData)) v := by
  have word : ∀ index < 2 * object.polyWords,
      wordAt cipheredData index = cipherWord c index := by
    intro index index_lt
    rw [wordAt_congr stored index_lt, cipherBytes, wordAt_wordBytes,
      Nat.mod_eq_of_lt (cipherWord_lt c index)]
  have first : ∀ cm, ∀ cell < object.fv.degree,
      (ciphertextOf cipheredData).1 cm cell = c.1 cm cell := by
    intro cm cell cell_lt
    refine FV.transformtopolyp_eq ?_ cm cell_lt
    intro index index_lt
    change index < object.polyWords at index_lt
    rw [word index (by omega), cipherWord, if_pos index_lt]
  have second : ∀ cm, ∀ cell < object.fv.degree,
      (ciphertextOf cipheredData).2 cm cell = c.2 cm cell := by
    intro cm cell cell_lt
    refine @FV.transformtopolyp_eq object.fv c.2
      (fun index => wordAt cipheredData (object.polyWords + index)) ?_ cm cell cell_lt
    intro index index_lt
    change index < object.polyWords at index_lt
    rw [word _ (by omega), cipherWord, if_neg (by omega), Nat.add_sub_cancel_left]
  refine PolyType.Transforms.of_eq holds ?_
  intro cm cell cell_lt
  change (ciphertextOf cipheredData).1 cm cell +
    (ciphertextOf cipheredData).2 cm cell * keys.value cm cell = _
  rw [first cm cell cell_lt, second cm cell cell_lt]
  rfl

/-- A run of bytes is the low part of a longer one. -/
theorem littleEndian_mod (bytes : ℕ → UInt8) {count more : ℕ} (le : count ≤ more) :
    littleEndian bytes more % 2 ^ (8 * count) = littleEndian bytes count := by
  have digits : littleEndian bytes count = concatenate 8 (fun k => (bytes k).toNat) count := rfl
  rw [← concatenate_bitSlice (by decide), digits]
  apply concatenate_congr
  intro byte byte_lt
  rw [bitSlice_littleEndian, if_pos (by omega)]

/-- The bytes that are decrypted are those of the slots. -/
theorem decryptBytes_eq {m e : ℕ → ℤ}
    (holds : FV.Holds keys (transformtoFV_cipher c)
      fun i => object.fv.q / object.fv.t * m i + e i)
    (noise_lt : ∀ i < object.fv.degree, |object.fv.noiseAt m e i| < (object.fv.q : ℤ) / 2)
    {slots : object.fv.polyP_p.poly} (transforms : object.fv.polyP_p.Transforms slots m)
    (stored : ∀ byte < 8 * (2 * object.polyWords), cipheredData byte = cipherBytes c byte)
    (recLvl : ℕ) : littleEndian (decryptBytes keys recLvl cipheredData) object.absorbedBytes =
      object.packed fun i => (slots object.fv.first i).val := by
  rcases NFLFV.decrypt_eq (dec keys (ciphertextOf cipheredData))
    (Nat.lt_succ_self object.fv.degree) with ⟨out_data, runs, bits⟩
  have whole := eight_mul_absorbedBytes object
  have inside : object.absorbedBytes ≤
      8 * (NFLFV.absorptionBits * object.fv.degree / 64 + 1) := by
    rw [mul_comm] at whole
    rw [mul_comm NFLFV.absorptionBits]
    omega
  rw [decryptBytes, runs, Option.getD_some, ← littleEndian_mod out_data inside, whole,
    mul_comm object.fv.degree, ← concatenate_bitSlice absorptionBits_pos, packed]
  apply concatenate_congr
  intro i i_lt
  have slot := bits i i_lt
  rw [NFLFV.slotBits] at slot
  rw [slot, dec_eq (holds_ciphertextOf holds stored) noise_lt transforms i_lt]

end Bytes

end FVobject

end Xpir.Nfl
